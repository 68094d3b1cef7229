import LetLang.Proofs.Evaluation.Runs
import Mathlib.Logic.Relation

/-!
# What tasks do to the machine

By itself a task does little to the machine: it asks whether to go on, binds a name, takes an identity or notes a
failure. All else is done by the tasks that it asks for, and a call enters a body and leaves it again. `Plan.Proceeds`
says this of a plan, and `proceeds_plan` proves it of every task, form by form; nothing below looks at the forms again.

Some relations between machines follow a run for this reason alone. A `Course` relates the start of every task to its
end; it may be one that entering a body does not keep, if leaving the body makes up for it. A `Passage` relates the start
also to what the run comes to inside of bodies. A `Drift` relates the machine at any point of a run to the machine at any
later point. Which of two points is the later one is a fact about the run (`Drift.apart`): the tasks that start there are
nested, or one of them is over before the other starts.
-/

set_option autoImplicit false

namespace LetLang.Eval

open Relation

variable {limits : Limits}

/-! ## Plans change little -/

/-- What a task does to the machine by itself, calls apart. -/
inductive Change : Machine → Machine → Prop where
  | checked (m : Machine) : Change m m.checked
  | bound (m : Machine) (scope : ScopeId) (x : String) (v : Value) : Change m (m.bind scope x v)
  | identity (m : Machine) : Change m m.takeIdentity.2
  | failed (m : Machine) (fault : Fault) : Change m (m.note (.failed fault))

/-- How a plan goes on from the machine `m`: it makes at most one change, then it is done or asks for a task, and from
the end of that task it goes on in the same way. A call may instead ask for a body that it has entered, and then all
that is left to do is to leave it. -/
inductive Plan.Proceeds (limits : Limits) : Machine → Plan → Prop where
  | done {m m' : Machine} {v : Value} : ReflGen Change m m' → Proceeds limits m (.done v m')
  | ask {m m₁ : Machine} {t : Task} {next : Value → Machine → Plan} : ReflGen Change m m₁ →
      (∀ v m₂, Proceeds limits m₂ (next v m₂)) → Proceeds limits m (.ask t m₁ next)
  | call {m : Machine} {t : Task} (outer : ScopeId) (params : List Ident) (args : List Value) :
      limits.patience.answer m.asked = none → limits.forbidsCall m.depth = false →
      Proceeds limits m
        (.ask t (m.checked.called outer params args).2 fun v m' => .done v.opened m'.leave)

section
variable {m : Machine} {t : Task}

theorem proceeds_ask_done : (Plan.ask t m .done).Proceeds limits m :=
  .ask .refl fun _ _ => .done .refl

theorem proceeds_operand {next : Value → Machine → Plan} (hnext : ∀ v m₂, (next v m₂).Proceeds limits m₂) :
    (Plan.operand t m next).Proceeds limits m := by
  refine .ask .refl fun v m₂ => ?_
  split
  · exact .done .refl
  · exact hnext v m₂

theorem proceeds_operands {scope : ScopeId} : ∀ {es : List Expr} {m : Machine} {next : List Value → Machine → Plan},
    (∀ vs m₂, (next vs m₂).Proceeds limits m₂) → (Plan.operands scope es m next).Proceeds limits m := by
  intro es
  induction es with
  | nil => exact fun hnext => hnext [] _
  | cons e es ih =>
    intro m next hnext
    exact proceeds_operand fun v m₂ => ih fun vs m₃ => hnext (v :: vs) m₃

theorem proceeds_checking {next : Machine → Plan}
    (hnext : limits.patience.answer m.asked = none → (next m.checked).Proceeds limits m) :
    (Plan.checking limits m next).Proceeds limits m := by
  simp only [Plan.checking]
  split
  · exact .done (.single (.checked m))
  · next hanswer => exact hnext hanswer

end

theorem proceeds_expr (scope : ScopeId) (m : Machine) (e : Expr) :
    (Task.planExpr scope m e).Proceeds limits m := by
  cases e with
  | missing | ident _ | int _ _ | bool _ _ => exact .done .refl
  | fn _ _ _ => exact .done (.single (.identity m))
  | unary t op e => exact proceeds_operand fun v m₁ => .done .refl
  | binary t op l r => exact proceeds_operand fun v m₁ => proceeds_operand fun w m₂ => .done .refl
  | ifThen t c body =>
    refine proceeds_operand fun v m₁ => ?_
    split
    · exact proceeds_ask_done
    · exact .done .refl
  | ifElse t c body other =>
    refine proceeds_operand fun v m₁ => ?_
    split
    · exact proceeds_ask_done
    · exact proceeds_ask_done
  | call t f args => exact proceeds_operand fun v m₁ => proceeds_operands fun vs m₂ => proceeds_ask_done

theorem proceeds_apply (m : Machine) (args : List Value) (f : Value) :
    (Task.planApply limits m args f).Proceeds limits m := by
  cases f with
  | fn id params body scope =>
    simp only [Task.planApply]
    split
    · exact .done .refl
    · refine proceeds_checking fun hanswer => ?_
      split
      · exact .done (.single (.checked m))
      · next hdeep => exact .call scope params args hanswer (Bool.eq_false_iff.mpr hdeep)
  | _ => exact .done .refl

theorem proceeds_stmt (scope : ScopeId) (m : Machine) (s : Stmt) :
    (Task.planStmt scope m s).Proceeds limits m := by
  cases s with
  | bind t x e => exact proceeds_operand fun v m₁ => .done (.single (.bound m₁ scope x.name v))
  | ret t e => exact proceeds_operand fun v m₁ => .done (.single (.identity m₁))
  | expr t e => exact proceeds_ask_done
  | block b => exact proceeds_ask_done

theorem proceeds_stmts (scope : ScopeId) (m : Machine) (last : Value) (ss : List Stmt) :
    (Task.planStmts limits scope m last ss).Proceeds limits m := by
  cases ss with
  | nil => exact .done .refl
  | cons s ss =>
    rw [Task.planStmts]
    refine proceeds_checking fun _ => .ask (.single (.checked m)) fun v m₁ => ?_
    split
    · exact .done .refl
    · exact proceeds_ask_done

theorem proceeds_program (scope : ScopeId) (m : Machine) (last : Value) (ss : Program) :
    (Task.planProgram limits scope m last ss).Proceeds limits m := by
  cases ss with
  | nil => exact .done .refl
  | cons s ss =>
    rw [Task.planProgram]
    refine proceeds_checking fun _ => .ask (.single (.checked m)) fun v m₁ => ?_
    cases v with
    | returned id w => exact .done .refl
    | error fault => exact .done (.single (.failed m₁ fault))
    | _ => exact proceeds_ask_done

/-- **This is all that tasks do to the machine.** -/
theorem proceeds_plan (t : Task) (m : Machine) : (t.plan limits m).Proceeds limits m := by
  cases t with
  | expr scope e => exact proceeds_expr scope m e
  | apply f args => exact proceeds_apply m args f
  | stmt scope s => exact proceeds_stmt scope m s
  | stmts scope ss last => exact proceeds_stmts scope m last ss
  | program scope ss last => exact proceeds_program scope m last ss

/-! ## From the start of a task to its end -/

/-- A relation that holds between the start and the end of every task. -/
structure Course (limits : Limits) (R : Machine → Machine → Prop) : Prop where
  refl : ∀ m, R m m
  trans : ∀ {m₁ m₂ m₃}, R m₁ m₂ → R m₂ m₃ → R m₁ m₃
  change : ∀ {m m'}, Change m m' → R m m'
  /-- A call as a whole: it asks, enters the body, and leaves it again. -/
  call : ∀ {m m'} (outer params args), limits.patience.answer m.asked = none →
    limits.forbidsCall m.depth = false → R (m.checked.called outer params args).2 m' → R m m'.leave

section
variable {R : Machine → Machine → Prop} {t t₁ t₂ root : Task} {m m₀ m₁ m₂ m' : Machine} {v : Value} {p : Plan}

theorem Course.of_reflGen (hR : Course limits R) (h : ReflGen Change m m') : R m m' := by
  cases h with
  | refl => exact hR.refl m
  | single hc => exact hR.change hc

theorem Course.of_resolves (hR : Course limits R) (h : Resolves limits p v m') :
    ∀ {m : Machine}, p.Proceeds limits m → R m m' := by
  induction h with
  | done =>
    intro m hp
    cases hp with
    | done hc => exact hR.of_reflGen hc
  | @ask t m₁ m₂ _ _ _ _ _ hnext iht ihnext =>
    intro m hp
    have htask : R m₁ m₂ := iht (proceeds_plan t m₁)
    cases hp with
    | ask hc goesOn => exact hR.trans (hR.of_reflGen hc) (hR.trans htask (ihnext (goesOn _ _)))
    | call outer params args hanswer hdeep =>
      cases hnext
      exact hR.call outer params args hanswer hdeep htask

theorem Course.of_yields (hR : Course limits R) (h : Yields limits t m v m') : R m m' :=
  hR.of_resolves (yields_iff.mp h) (proceeds_plan t m)

/-! ## From the start of a task to any point of its run -/

/-- A relation `Q` that holds between the start of every task and all that its run comes to, beside one that holds
between its start and its end. Inside a call the body is entered and not yet left. -/
structure Passage (limits : Limits) (R Q : Machine → Machine → Prop) : Prop where
  course : Course limits R
  of_course : ∀ {m m'}, R m m' → Q m m'
  trans : ∀ {m₁ m₂ m₃}, Q m₁ m₂ → Q m₂ m₃ → Q m₁ m₃
  enter : ∀ {m} (outer params args), limits.patience.answer m.asked = none →
    limits.forbidsCall m.depth = false → Q m (m.checked.called outer params args).2

theorem Passage.of_asks {Q : Machine → Machine → Prop} (hQ : Passage limits R Q) (ha : Asks limits p t m₁) :
    ∀ {m : Machine}, p.Proceeds limits m → Q m m₁ := by
  induction ha with
  | now =>
    intro m hp
    cases hp with
    | ask hc _ => exact hQ.of_course (hQ.course.of_reflGen hc)
    | call outer params args hanswer hdeep => exact hQ.enter outer params args hanswer hdeep
  | later hy ha ih =>
    intro m hp
    cases hp with
    | ask hc goesOn =>
      have hbefore := hQ.course.trans (hQ.course.of_reflGen hc) (hQ.course.of_yields hy)
      exact hQ.trans (hQ.of_course hbefore) (ih (goesOn _ _))
    | call => cases ha

theorem Passage.of_reaches {Q : Machine → Machine → Prop} (hQ : Passage limits R Q)
    (h : Reaches limits root m₀ t m) : Q m₀ m := by
  induction h with
  | start => exact hQ.of_course (hQ.course.refl _)
  | @step t₁ t₂ m₁ m₂ _ ha ih => exact hQ.trans ih (hQ.of_asks ha (proceeds_plan t₁ m₁))

/-! ## From any point of a run to a later one -/

/-- A relation that every change keeps, and so do entering a body and leaving it. -/
structure Drift (R : Machine → Machine → Prop) : Prop where
  refl : ∀ m, R m m
  trans : ∀ {m₁ m₂ m₃}, R m₁ m₂ → R m₂ m₃ → R m₁ m₃
  change : ∀ {m m'}, Change m m' → R m m'
  called : ∀ m outer params args, R m (Machine.called m outer params args).2
  leave : ∀ m, R m (Machine.leave m)

theorem Drift.course (hR : Drift R) : Course limits R where
  refl := hR.refl
  trans := hR.trans
  change := hR.change
  call outer params args _ _ h :=
    hR.trans (hR.change (.checked _)) (hR.trans (hR.called _ outer params args) (hR.trans h (hR.leave _)))

theorem Drift.passage (hR : Drift R) : Passage limits R R where
  course := hR.course
  of_course := id
  trans := hR.trans
  enter outer params args _ _ := hR.trans (hR.change (.checked _)) (hR.called _ outer params args)

/-- What a plan asks for is over before it ends. -/
theorem Drift.end_of_asks (hR : Drift R) (ha : Asks limits p t m₁) : ∀ {m m' : Machine} {v : Value},
    p.Proceeds limits m → Resolves limits p v m' → ∃ w m₂, Yields limits t m₁ w m₂ ∧ R m₂ m' := by
  have course : Course limits R := hR.course
  induction ha with
  | now =>
    intro m m' v hp hr
    cases hr with
    | @ask _ _ m₂ _ _ _ _ ht hnext =>
      refine ⟨_, m₂, yields_iff.mpr ht, ?_⟩
      cases hp with
      | ask _ goesOn => exact course.of_resolves hnext (goesOn _ _)
      | call =>
        cases hnext
        exact hR.leave m₂
  | later hy ha ih =>
    intro m m' v hp hr
    cases hr with
    | ask ht hnext =>
      obtain ⟨rfl, rfl⟩ := yields_unique hy (yields_iff.mpr ht)
      cases hp with
      | ask _ goesOn => exact ih (goesOn _ _) hnext
      | call => cases ha

/-- In a run that ends, everything that it comes to is over before. -/
theorem Drift.end_of_reaches (hR : Drift R) (hr : Reaches limits root m₀ t m) (hy : Yields limits root m₀ v m') :
    ∃ w m₂, Yields limits t m w m₂ ∧ R m₂ m' := by
  induction hr with
  | start => exact ⟨v, m', hy, hR.refl m'⟩
  | @step t₁ t₂ m₁ m₂ _ ha ih =>
    obtain ⟨w, m₃, hw, h⟩ := ih
    obtain ⟨w', m₄, hw', h'⟩ := hR.end_of_asks ha (proceeds_plan t₁ m₁) (yields_iff.mp hw)
    exact ⟨w', m₄, hw', hR.trans h' h⟩

/-- What one plan asks for is asked for one after the other. -/
theorem Drift.asks_apart (hR : Drift R) (h₁ : Asks limits p t₁ m₁) : ∀ {m : Machine}, p.Proceeds limits m →
    Asks limits p t₂ m₂ → t₁ = t₂ ∧ m₁ = m₂ ∨ (∃ w m', Yields limits t₁ m₁ w m' ∧ R m' m₂) ∨
      ∃ w m', Yields limits t₂ m₂ w m' ∧ R m' m₁ := by
  induction h₁ with
  | now =>
    intro m hp h₂
    cases h₂ with
    | now => exact .inl ⟨rfl, rfl⟩
    | later hy ha =>
      cases hp with
      | ask _ goesOn => exact .inr (.inl ⟨_, _, hy, hR.passage.of_asks ha (goesOn _ _)⟩)
      | call => cases ha
  | later hy ha ih =>
    intro m hp h₂
    cases hp with
    | ask _ goesOn =>
      cases h₂ with
      | now => exact .inr (.inr ⟨_, _, hy, hR.passage.of_asks ha (goesOn _ _)⟩)
      | later hy' ha' =>
        obtain ⟨rfl, rfl⟩ := yields_unique hy hy'
        exact ih (goesOn _ _) ha'
    | call => cases ha

/-- **Two tasks of a run are nested, or one of them is over before the other starts.** -/
theorem Drift.apart (hR : Drift R) (h₁ : Reaches limits root m₀ t₁ m₁) (h₂ : Reaches limits root m₀ t₂ m₂) :
    Reaches limits t₁ m₁ t₂ m₂ ∨ Reaches limits t₂ m₂ t₁ m₁ ∨ (∃ w m', Yields limits t₁ m₁ w m' ∧ R m' m₂) ∨
      ∃ w m', Yields limits t₂ m₂ w m' ∧ R m' m₁ := by
  -- along the way to the first of them, which gets one task deeper at each step
  induction h₁ with
  | start => exact .inl h₂
  | @step t t₁ m m₁ _ ha ih =>
    have hstep : R m m₁ := hR.passage.of_asks ha (proceeds_plan t m)
    rcases ih with hin | hin | ⟨w, m', hy, h⟩ | ⟨w, m', hy, h⟩
    · rcases hin.eq_or_asks with ⟨rfl, rfl⟩ | ⟨t₃, m₃, ha₃, hr₃⟩
      · exact .inr (.inl (Reaches.start.step ha))
      · rcases hR.asks_apart ha (proceeds_plan t m) ha₃ with ⟨rfl, rfl⟩ | ⟨w, m', hy, h⟩ | ⟨w, m', hy, h⟩
        · exact .inl hr₃
        · exact .inr (.inr (.inl ⟨w, m', hy, hR.trans h (hR.passage.of_reaches hr₃)⟩))
        · obtain ⟨w', m'', hy', h'⟩ := hR.end_of_reaches hr₃ hy
          exact .inr (.inr (.inr ⟨w', m'', hy', hR.trans h' h⟩))
    · exact .inr (.inl (hin.step ha))
    · obtain ⟨w', m'', hy', h'⟩ := hR.end_of_reaches (Reaches.start.step ha) hy
      exact .inr (.inr (.inl ⟨w', m'', hy', hR.trans h' h⟩))
    · exact .inr (.inr (.inr ⟨w, m', hy, hR.trans h hstep⟩))

end

end LetLang.Eval
