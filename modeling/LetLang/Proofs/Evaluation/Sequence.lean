import LetLang.Proofs.Evaluation.Agreement
import LetLang.Proofs.Evaluation.Simulation

/-!
# Programs one after the other

A program runs its statements in order, and goes on as long as they yield neither an error nor a returned value. So the
run of a program that is put together from two is the run of the first and then, if the first has gone through, that of
the second (`yields_append_iff`).

Two runs in a row differ from one in what has happened before: the second starts with an empty trace. Nothing that a run
does depends on its trace (`run_after`), so an earlier past can be put under a run without changing it.
-/

set_option autoImplicit false

namespace LetLang

/-- Whether a value ends the program, or the block, that a statement yields it in. -/
def Value.isFinal (v : Value) : Bool := v.isReturned || v.isError

/-- The machine on which a program ends when one of its statements yields that value. -/
def Machine.ended (m : Machine) : Value → Machine
  | .error fault => m.note (.failed fault)
  | _ => m

/-! ## What has happened before -/

/-- The machine after an earlier past. -/
def Machine.after (past : List Event) (m : Machine) : Machine := { m with trace := m.trace ++ past }

theorem Machine.after_after (m : Machine) (past older : List Event) :
    (m.after past).after older = m.after (past ++ older) := by
  simp only [Machine.after, List.append_assoc]

/-- The renaming that changes nothing. -/
def Renaming.trivial : Renaming where
  scope := Eq
  identity := Eq
  scope_iff := by
    rintro s s' t t' rfl rfl
    rfl
  identity_iff := by
    rintro i i' j j' rfl rfl
    rfl

theorem Value.renamed_trivial_iff {v v' : Value} : v.Renamed .trivial v' ↔ v = v' := by
  constructor
  · intro h
    induction h with
    | returned hi _ ih =>
      obtain rfl : _ = _ := hi
      rw [ih]
    | fn params body hi hs =>
      obtain rfl : _ = _ := hi
      obtain rfl : _ = _ := hs
      rfl
    | _ => rfl
  · rintro rfl
    induction v with
    | returned i v ih => exact .returned rfl ih
    | fn i params body s => exact .fn params body rfl rfl
    | _ => exact .of_isData trivial

namespace Eval

theorem Task.renamed_trivial (t : Task) : t.Renamed .trivial t := by
  have hrefl (v : Value) : v.Renamed .trivial v := Value.renamed_trivial_iff.mpr rfl
  cases t with
  | expr s e => exact .expr e rfl
  | apply f args => exact .apply (hrefl f) (List.forall₂_same.mpr fun v _ => hrefl v)
  | stmt s st => exact .stmt st rfl
  | stmts s ss last => exact .stmts ss rfl (hrefl last)
  | program s ss last => exact .program ss rfl (hrefl last)

def pastSimulation (limits : Limits) (past : List Event) : Simulation limits where
  Corresponds R m m' := R = .trivial ∧ m' = m.after past
  answer := by
    rintro R m m' ⟨rfl, rfl⟩
    rfl
  checked := by
    rintro R m m' ⟨rfl, rfl⟩
    exact ⟨rfl, rfl⟩
  depth := by
    rintro R m m' ⟨rfl, rfl⟩
    rfl
  enter := by
    rintro R m m' n ⟨rfl, rfl⟩
    exact ⟨rfl, rfl⟩
  leave := by
    rintro R m m' ⟨rfl, rfl⟩
    exact ⟨rfl, rfl⟩
  failed := by
    rintro R m m' fault ⟨rfl, rfl⟩
    exact ⟨rfl, rfl⟩
  name := by
    rintro R m m' s s' x ⟨rfl, rfl⟩ rfl
    exact Value.renamed_trivial_iff.mpr rfl
  bind := by
    rintro R m m' s s' v v' x ⟨rfl, rfl⟩ rfl hv
    obtain rfl := Value.renamed_trivial_iff.mp hv
    exact ⟨rfl, rfl⟩
  takeIdentity := by
    rintro R m m' ⟨rfl, rfl⟩
    exact ⟨.trivial, Renaming.le_refl _, rfl, rfl, rfl⟩
  enclose := by
    rintro R m m' s s' ⟨rfl, rfl⟩ rfl
    exact ⟨.trivial, Renaming.le_refl _, rfl, rfl, rfl⟩

variable {limits : Limits} {scope : ScopeId}

/-- **Nothing depends on what has happened before.** -/
theorem run_after (fuel : Nat) (t : Task) (m : Machine) (past : List Event) :
    t.run limits fuel (m.after past) = (t.run limits fuel m).map fun r => (r.1, r.2.after past) := by
  have hm : (pastSimulation limits past).Corresponds .trivial m (m.after past) := ⟨rfl, rfl⟩
  have h := Simulation.run fuel t.renamed_trivial hm
  generalize t.run limits fuel m = o, t.run limits fuel (m.after past) = o' at h
  cases h with
  | none => rfl
  | some _ hv hn =>
    obtain ⟨rfl, rfl⟩ := hn
    obtain rfl := Value.renamed_trivial_iff.mp hv
    rfl

theorem yields_after_iff {t : Task} {m n' : Machine} {v : Value} {past : List Event} :
    Yields limits t (m.after past) v n' ↔ ∃ n, Yields limits t m v n ∧ n' = n.after past := by
  constructor
  · rintro ⟨fuel, h⟩
    rw [run_after] at h
    obtain ⟨⟨w, n⟩, hr, heq⟩ := Option.map_eq_some_iff.mp h
    obtain ⟨rfl, rfl⟩ := Prod.mk.inj heq
    exact ⟨n, ⟨fuel, hr⟩, rfl⟩
  · rintro ⟨n, ⟨fuel, hr⟩, rfl⟩
    exact ⟨fuel, by rw [run_after, hr]; rfl⟩

/-! ## Statements of a program -/

theorem resolves_ask_done_iff {t : Task} {m m' : Machine} {w : Value} :
    Resolves limits (.ask t m .done) w m' ↔ Yields limits t m w m' := by
  rw [yields_iff]
  constructor
  · intro h
    cases h with
    | ask hr hdone =>
      cases hdone
      exact hr
  · exact fun hr => .ask hr .done

theorem yields_nil_iff {last w : Value} {m m' : Machine} :
    Yields limits (.program scope [] last) m w m' ↔ w = last ∧ m' = m := by
  rw [yields_iff]
  constructor
  · rintro ⟨⟩
    exact ⟨rfl, rfl⟩
  · rintro ⟨rfl, rfl⟩
    exact .done

/-- In the run of the program one of its statements is come to and yields that value. -/
inductive StatementYields (limits : Limits) (scope : ScopeId) : Program → Machine → Value → Prop where
  | first {s : Stmt} {ss : Program} {m m₁ : Machine} {v : Value} : limits.patience.answer m.asked = none →
      Yields limits (.stmt scope s) m.checked v m₁ → StatementYields limits scope (s :: ss) m v
  | later {s : Stmt} {ss : Program} {m m₁ : Machine} {v w : Value} : limits.patience.answer m.asked = none →
      Yields limits (.stmt scope s) m.checked v m₁ → v.isFinal = false → StatementYields limits scope ss m₁ w →
      StatementYields limits scope (s :: ss) m w

/-- All statements are evaluated, and none of them ends the program. -/
inductive Passes (limits : Limits) (scope : ScopeId) : Program → Value → Machine → Value → Machine → Prop where
  | nil {last : Value} {m : Machine} : Passes limits scope [] last m last m
  | cons {s : Stmt} {ss : Program} {last v w : Value} {m m₁ m' : Machine} :
      Yields limits (.stmt scope s) m.checked v m₁ → v.isFinal = false → Passes limits scope ss v m₁ w m' →
      Passes limits scope (s :: ss) last m w m'

/-- A statement ends the program, with that value and on that machine. -/
inductive Stops (limits : Limits) (scope : ScopeId) : Program → Machine → Value → Machine → Prop where
  | first {s : Stmt} {ss : Program} {m m₁ : Machine} {v : Value} :
      Yields limits (.stmt scope s) m.checked v m₁ → v.isFinal = true →
      Stops limits scope (s :: ss) m v.opened (m₁.ended v)
  | later {s : Stmt} {ss : Program} {m m₁ m' : Machine} {v w : Value} :
      Yields limits (.stmt scope s) m.checked v m₁ → v.isFinal = false → Stops limits scope ss m₁ w m' →
      Stops limits scope (s :: ss) m w m'

/-- The run of a program by its first statement: it is told to stop before, or the statement ends it, or the rest goes
on from there. -/
theorem yields_program_cons {s : Stmt} {ss : Program} {last w : Value} {m m' : Machine} :
    Yields limits (.program scope (s :: ss) last) m w m' ↔
      (∃ why, limits.patience.answer m.asked = some why ∧ w = .error (.cancelled why) ∧ m' = m.checked) ∨
        limits.patience.answer m.asked = none ∧ ∃ v m₁, Yields limits (.stmt scope s) m.checked v m₁ ∧
          (v.isFinal = true ∧ w = v.opened ∧ m' = m₁.ended v ∨
            v.isFinal = false ∧ Yields limits (.program scope ss v) m₁ w m') := by
  rw [yields_iff]
  simp only [Task.plan, Task.planProgram, Plan.checking]
  cases hanswer : limits.patience.answer m.asked with
  | some why =>
    constructor
    · rintro ⟨⟩
      exact .inl ⟨why, rfl, rfl, rfl⟩
    · rintro (⟨why', hwhy, rfl, rfl⟩ | ⟨hnone, -⟩)
      · obtain rfl := Option.some.inj hwhy
        exact .done
      · cases hnone
  | none =>
    constructor
    · intro h
      cases h with
      | @ask _ _ m₁ _ _ v _ hs hnext =>
        refine .inr ⟨rfl, v, m₁, yields_iff.mpr hs, ?_⟩
        cases v with
        | returned i v =>
          cases hnext
          exact .inl ⟨rfl, rfl, rfl⟩
        | error fault =>
          cases hnext
          exact .inl ⟨rfl, rfl, rfl⟩
        | _ => exact .inr ⟨rfl, resolves_ask_done_iff.mp hnext⟩
    · rintro (⟨why, hwhy, -⟩ | ⟨-, v, m₁, hs, ⟨hv, rfl, rfl⟩ | ⟨hv, hrest⟩⟩)
      · cases hwhy
      · refine .ask (yields_iff.mp hs) ?_
        cases v with
        | returned i v => exact .done
        | error fault => exact .done
        | _ => exact absurd hv (by simp [Value.isFinal, Value.isReturned, Value.isError])
      · refine .ask (yields_iff.mp hs) ?_
        cases v with
        | returned i v => exact absurd hv (by simp [Value.isFinal, Value.isReturned])
        | error fault => exact absurd hv (by simp [Value.isFinal, Value.isError])
        | _ => exact resolves_ask_done_iff.mpr hrest

section
variable (hp : limits.patience = .endless)
include hp

theorem yields_program_cons_iff {s : Stmt} {ss : Program} {last w : Value} {m m' : Machine} :
    Yields limits (.program scope (s :: ss) last) m w m' ↔
      ∃ v m₁, Yields limits (.stmt scope s) m.checked v m₁ ∧
        (v.isFinal = true ∧ w = v.opened ∧ m' = m₁.ended v ∨
          v.isFinal = false ∧ Yields limits (.program scope ss v) m₁ w m') := by
  simp [yields_program_cons, hp, Patience.answer]

/-- **The run of a program that is put together from two**: the first part stops, or it passes and the second part goes
on from there. -/
theorem yields_append_iff {q : Program} {w : Value} {m' : Machine} : ∀ {p : Program} {last : Value} {m : Machine},
    Yields limits (.program scope (p ++ q) last) m w m' ↔
      Stops limits scope p m w m' ∨
        ∃ v m₁, Passes limits scope p last m v m₁ ∧ Yields limits (.program scope q v) m₁ w m' := by
  intro p
  induction p with
  | nil =>
    intro last m
    constructor
    · exact fun h => .inr ⟨last, m, .nil, h⟩
    · rintro (h | ⟨v, m₁, h, hq⟩)
      · cases h
      · cases h
        exact hq
  | cons s p ih =>
    intro last m
    rw [List.cons_append, yields_program_cons_iff hp]
    constructor
    · rintro ⟨v, m₁, hs, ⟨hv, rfl, rfl⟩ | ⟨hv, hrest⟩⟩
      · exact .inl (.first hs hv)
      · rcases ih.mp hrest with hstop | ⟨v', m₂, hpass, hq⟩
        · exact .inl (.later hs hv hstop)
        · exact .inr ⟨v', m₂, .cons hs hv hpass, hq⟩
    · rintro (h | ⟨v', m₂, h, hq⟩)
      · cases h with
        | first hs hv => exact ⟨_, _, hs, .inl ⟨hv, rfl, rfl⟩⟩
        | later hs hv hstop => exact ⟨_, _, hs, .inr ⟨hv, ih.mpr (.inl hstop)⟩⟩
      · cases h with
        | cons hs hv hpass => exact ⟨_, _, hs, .inr ⟨hv, ih.mpr (.inr ⟨v', m₂, hpass, hq⟩)⟩⟩

/-- A program that ends stops or passes. -/
theorem yields_program_iff {p : Program} {last w : Value} {m m' : Machine} :
    Yields limits (.program scope p last) m w m' ↔
      Stops limits scope p m w m' ∨ Passes limits scope p last m w m' := by
  rw [← List.append_nil p, yields_append_iff hp, List.append_nil]
  refine or_congr_right ⟨?_, fun hpass => ⟨w, m', hpass, yields_nil_iff.mpr ⟨rfl, rfl⟩⟩⟩
  rintro ⟨v, m₁, hpass, hq⟩
  obtain ⟨rfl, rfl⟩ := yields_nil_iff.mp hq
  exact hpass

theorem Stops.exists_statement {p : Program} {m m' : Machine} {w : Value} (h : Stops limits scope p m w m') :
    ∃ v, StatementYields limits scope p m v ∧ v.isFinal = true := by
  have hanswer (k : Nat) : limits.patience.answer k = none := by rw [hp]; rfl
  induction h with
  | first hs hv => exact ⟨_, .first (hanswer _) hs, hv⟩
  | later hs hv _ ih =>
    obtain ⟨v, hstmt, hfinal⟩ := ih
    exact ⟨v, .later (hanswer _) hs hv hstmt, hfinal⟩

omit hp in
theorem Passes.isFinal {p : Program} {last v w : Value} {m m' : Machine}
    (hstmt : StatementYields limits scope p m w) (h : Passes limits scope p last m v m') : w.isFinal = false := by
  induction hstmt generalizing last v m' with
  | first _ hs =>
    cases h with
    | cons hs' hv _ =>
      obtain ⟨rfl, rfl⟩ := yields_unique hs hs'
      exact hv
  | later _ hs _ _ ih =>
    cases h with
    | cons hs' _ hrest =>
      obtain ⟨rfl, rfl⟩ := yields_unique hs hs'
      exact ih hrest

end

theorem Passes.after {p : Program} {last w : Value} {m m' : Machine} (h : Passes limits scope p last m w m')
    (past : List Event) : Passes limits scope p last (m.after past) w (m'.after past) := by
  induction h with
  | nil => exact .nil
  | cons hs hv _ ih => exact .cons (yields_after_iff.mpr ⟨_, hs, rfl⟩) hv ih

theorem Passes.append {p q : Program} {last v w : Value} {m m₁ m' : Machine}
    (h : Passes limits scope p last m v m₁) (h' : Passes limits scope q v m₁ w m') :
    Passes limits scope (p ++ q) last m w m' := by
  induction h with
  | nil => exact h'
  | cons hs hv _ ih => exact .cons hs hv (ih h')

/-- What was yielded before only matters if there are no statements. -/
theorem Passes.of_ne_nil {p : Program} {last last' w : Value} {m m' : Machine} (hne : p ≠ [])
    (h : Passes limits scope p last m w m') : Passes limits scope p last' m w m' := by
  cases h with
  | nil => exact absurd rfl hne
  | cons hs hv hrest => exact .cons hs hv hrest

end Eval

end LetLang
