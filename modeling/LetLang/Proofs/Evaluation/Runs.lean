import LetLang.Proofs.Evaluation.Plan

/-!
# Properties of runs

A run of a task is more than its result: it may not end, and on the way it starts other tasks. `Reaches t m t' m'`
says that the run of `t` from `m` comes to the start of `t'` on the machine `m'`, and speaks about runs that do not
end as well.

A property of runs has two sides, a precondition of the tasks that are asked for and a postcondition of those
that end (`Spec`). It is enough to show, for each form of task, that its plan asks only for what it may and ends
as it should, *if* what it asked for did (`Plan.Meets`). From this one obligation per form, `Spec.holds` gives
both sides for everything a run reaches.
-/

set_option autoImplicit false

namespace LetLang.Eval

variable {limits : Limits}

/-! ## Several values -/

/-- The expressions, evaluated one after the other, yield these values and no error. -/
inductive YieldsAll (limits : Limits) (scope : ScopeId) :
    List Expr → Machine → List Value → Machine → Prop where
  | nil {m : Machine} : YieldsAll limits scope [] m [] m
  | cons {e : Expr} {es : List Expr} {v : Value} {vs : List Value} {m m₁ m' : Machine} :
      Yields limits (.expr scope e) m v m₁ → v.isError = false →
      YieldsAll limits scope es m₁ vs m' → YieldsAll limits scope (e :: es) m (v :: vs) m'

/-! ## What a run comes to -/

/-- The plan comes to asking for `t` on `m`: at once, or after answers to what it asks for before. -/
inductive Asks (limits : Limits) : Plan → Task → Machine → Prop where
  | now {t : Task} {m : Machine} {next : Value → Machine → Plan} : Asks limits (.ask t m next) t m
  | later {t t' : Task} {m m₁ m' : Machine} {next : Value → Machine → Plan} {a : Value} :
      Yields limits t m a m₁ → Asks limits (next a m₁) t' m' → Asks limits (.ask t m next) t' m'

/-- The run of `t` from `m` comes to the start of another task on some machine. -/
inductive Reaches (limits : Limits) (t : Task) (m : Machine) : Task → Machine → Prop where
  | start : Reaches limits t m t m
  | step {t₁ t₂ : Task} {m₁ m₂ : Machine} : Reaches limits t m t₁ m₁ →
      Asks limits (t₁.plan limits m₁) t₂ m₂ → Reaches limits t m t₂ m₂

section
variable {t t₁ t₂ : Task} {m m₁ m₂ : Machine} {v w : Value}

/-- There is one run for each task. -/
theorem yields_unique (h₁ : Yields limits t m v m₁) (h₂ : Yields limits t m w m₂) :
    v = w ∧ m₁ = m₂ := by
  obtain ⟨f₁, hf₁⟩ := run_of_resolves (yields_iff.mp h₁)
  obtain ⟨f₂, hf₂⟩ := run_of_resolves (yields_iff.mp h₂)
  have h : some (v, m₁) = some (w, m₂) := by
    rw [← hf₁ (max f₁ f₂) (Nat.le_max_left _ _), hf₂ (max f₁ f₂) (Nat.le_max_right _ _)]
  simpa using h

theorem Reaches.trans (h : Reaches limits t m t₁ m₁) (h' : Reaches limits t₁ m₁ t₂ m₂) :
    Reaches limits t m t₂ m₂ := by
  induction h' with
  | start => exact h
  | step _ ha ih => exact ih.step ha

theorem Reaches.of_asks (ha : Asks limits (t.plan limits m) t₁ m₁)
    (h : Reaches limits t₁ m₁ t₂ m₂) : Reaches limits t m t₂ m₂ :=
  (Reaches.start.step ha).trans h

/-- What a run comes to is its start, or is come to from something that the start asks for. -/
theorem Reaches.eq_or_asks (h : Reaches limits t m t₂ m₂) : t₂ = t ∧ m₂ = m ∨
    ∃ t₁ m₁, Asks limits (t.plan limits m) t₁ m₁ ∧ Reaches limits t₁ m₁ t₂ m₂ := by
  induction h with
  | start => exact .inl ⟨rfl, rfl⟩
  | step _ ha ih =>
    rcases ih with ⟨rfl, rfl⟩ | ⟨t₁, m₁, hfirst, hr⟩
    · exact .inr ⟨_, _, ha, .start⟩
    · exact .inr ⟨t₁, m₁, hfirst, hr.step ha⟩

end

/-! ## Properties of runs -/

/-- What holds when a task starts, and what holds when it ends. -/
structure Spec where
  pre : Task → Machine → Prop
  post : Task → Machine → Value → Machine → Prop

/-- The plan asks only for tasks whose precondition holds, and ends with `Q` if they keep their
postconditions. -/
def Plan.Meets (limits : Limits) (S : Spec) (Q : Value → Machine → Prop) : Plan → Prop
  | .done v m => Q v m
  | .ask t m next => S.pre t m ∧
    ∀ v m', Yields limits t m v m' → S.post t m v m' → (next v m').Meets limits S Q

section
variable {S : Spec} {Q : Value → Machine → Prop}

theorem meets_operand {t : Task} {m : Machine} {next : Value → Machine → Plan} (hpre : S.pre t m)
    (herror : ∀ v m', Yields limits t m v m' → S.post t m v m' → v.isError = true → Q v m')
    (hnext : ∀ v m', Yields limits t m v m' → S.post t m v m' → v.isError = false →
      (next v m').Meets limits S Q) : (Plan.operand t m next).Meets limits S Q := by
  refine ⟨hpre, fun v m' hy hp => ?_⟩
  show Plan.Meets limits S Q (if v.isError then .done v m' else next v m')
  by_cases hv : v.isError = true
  · rw [if_pos hv]
    exact herror v m' hy hp hv
  · rw [if_neg hv]
    exact hnext v m' hy hp (Bool.eq_false_iff.mpr hv)

theorem meets_checking {m : Machine} {next : Machine → Plan}
    (hstop : ∀ why, limits.patience.answer m.asked = some why →
      Q (.error (.cancelled why)) m.checked)
    (hnext : limits.patience.answer m.asked = none → (next m.checked).Meets limits S Q) :
    (Plan.checking limits m next).Meets limits S Q := by
  simp only [Plan.checking]
  split
  · next why hwhy => exact hstop why hwhy
  · next hnone => exact hnext hnone

/-- For several values an invariant of the machine is needed, and `P` collects what is known of each
value. -/
theorem meets_operands {scope : ScopeId} {I : Machine → Prop} {P : Expr → Value → Prop} :
    ∀ {es : List Expr} {m : Machine} {next : List Value → Machine → Plan},
      (∀ e ∈ es, ∀ m, I m → S.pre (.expr scope e) m) →
      (∀ e ∈ es, ∀ m v m', I m → S.post (.expr scope e) m v m' → I m' ∧ P e v) → I m →
      (∀ v m', I m' → v.isError = true → Q v m') →
      (∀ vs m', YieldsAll limits scope es m vs m' → I m' → (∀ x ∈ es.zip vs, P x.1 x.2) →
        (next vs m').Meets limits S Q) →
      (Plan.operands scope es m next).Meets limits S Q := by
  intro es
  induction es with
  | nil =>
    intro m next _ _ hI _ hnext
    exact hnext [] m .nil hI fun x hx => absurd hx (by simp)
  | cons e es ih =>
    intro m next hpre hpost hI herror hnext
    have hhead := hpost e List.mem_cons_self m
    refine meets_operand (hpre e List.mem_cons_self m hI) ?_ ?_
    · exact fun v m' _ hp hv => herror v m' (hhead v m' hI hp).1 hv
    · intro v m₁ hy hp hv
      obtain ⟨hI₁, hPv⟩ := hhead v m₁ hI hp
      refine ih (fun e' he => hpre e' (List.mem_cons_of_mem _ he))
        (fun e' he => hpost e' (List.mem_cons_of_mem _ he)) hI₁ herror ?_
      intro vs m' hys hI' hP
      refine hnext (v :: vs) m' (.cons hy hv hys) hI' fun x hx => ?_
      rcases List.mem_cons.mp hx with rfl | hx
      · exact hPv
      · exact hP x hx

variable {root : Task} {m₀ : Machine}

/-- The step of the induction over a run that ends: a plan that meets its obligations keeps its
postcondition, given that all tasks that are reached do. -/
theorem Plan.Meets.post (h : ∀ t m, Reaches limits root m₀ t m → S.pre t m →
      (t.plan limits m).Meets limits S (S.post t m)) {p : Plan} {v : Value} {m' : Machine}
    (hr : Resolves limits p v m') : ∀ {Q : Value → Machine → Prop}, p.Meets limits S Q →
      (∀ t m, Asks limits p t m → Reaches limits root m₀ t m) → Q v m' := by
  -- On the resolution, for all postconditions at once: the plan of a task that is asked for has its own.
  induction hr with
  | done => exact fun hQ _ => hQ
  | ask ht _ iht ihnext =>
    intro Q hp hreach
    have hstart := hreach _ _ .now
    have hpost := iht (h _ _ hstart hp.1) fun t' m' ha => hstart.step ha
    have hy := yields_iff.mpr ht
    exact ihnext (hp.2 _ _ hy hpost) fun t' m' ha => hreach t' m' (.later hy ha)

theorem Plan.Meets.pre (h : ∀ t m, Reaches limits root m₀ t m → S.pre t m →
      (t.plan limits m).Meets limits S (S.post t m)) {p : Plan} {t : Task} {m : Machine}
    (ha : Asks limits p t m) : p.Meets limits S Q →
      (∀ t m, Asks limits p t m → Reaches limits root m₀ t m) → S.pre t m := by
  induction ha with
  | now => exact fun hp _ => hp.1
  | later hy _ ih =>
    intro hp hreach
    have hstart := hreach _ _ .now
    have hpost := (h _ _ hstart hp.1).post h (yields_iff.mp hy) fun t' m' ha => hstart.step ha
    exact ih (hp.2 _ _ hy hpost) fun t' m' ha => hreach t' m' (.later hy ha)

/-- **One obligation for each task proves a property of all runs.** Preconditions hold of every task that is
reached, whether the run ends or not, and postconditions of every one that ends. -/
theorem Spec.holds (hroot : S.pre root m₀) (h : ∀ t m, Reaches limits root m₀ t m → S.pre t m →
      (t.plan limits m).Meets limits S (S.post t m)) {t : Task} {m : Machine}
    (hr : Reaches limits root m₀ t m) :
    S.pre t m ∧ ∀ v m', Yields limits t m v m' → S.post t m v m' := by
  have hpre : S.pre t m := by
    induction hr with
    | start => exact hroot
    | step hr ha ih => exact (h _ _ hr ih).pre h ha fun t' m' ha => hr.step ha
  refine ⟨hpre, fun v m' hy => ?_⟩
  exact (h t m hr hpre).post h (yields_iff.mp hy) fun t' m' ha => hr.step ha

end

end LetLang.Eval
