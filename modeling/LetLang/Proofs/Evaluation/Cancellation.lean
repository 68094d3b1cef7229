import LetLang.Proofs.Evaluation.Agreement
import LetLang.Proofs.Evaluation.Conduct
import LetLang.Tree.Parser

/-!
# Runs that are told to stop

A run asks many times whether to go on, and the answers differ only from some question on. Up to that question the run
that will be stopped and the run that never is are the same; at it, the one fails and leaves. So all that was written
and called is what the other run wrote and called before this question, whether that run ends or not.

The count of questions is what the argument goes along. It never decreases, and a task raises it by one at its start
or not at all. Hence two runs whose answers agree below `k` agree on everything that happens while at most `k`
questions have been asked (`reaches_of_asked_le`), and a run that asks more often than `k` times comes to a question
before which it has asked exactly `k` times (`exists_check`).
-/

set_option autoImplicit false

namespace LetLang

namespace Eval

variable {limits L L' : Limits} {t t₁ root : Task} {m m₀ m₁ m' : Machine} {v : Value} {p : Plan} {k : Nat}

/-! ## Questions add up -/

/-- Questions were only added, and so were events. -/
structure Later (m m' : Machine) : Prop where
  asked : m.asked ≤ m'.asked
  trace : m.trace <:+ m'.trace

theorem Later.trans {m₁ m₂ m₃ : Machine} (h : Later m₁ m₂) (h' : Later m₂ m₃) : Later m₁ m₃ :=
  ⟨Nat.le_trans h.asked h'.asked, h.trace.trans h'.trace⟩

theorem Quiet.later (h : Quiet m m') : Later m m' := ⟨Nat.le_of_eq h.asked.symm, h.trace⟩

section
variable (hdepth : L.maxDepth = L'.maxDepth)
  (hagree : ∀ asked < k, L.patience.answer asked = L'.patience.answer asked)
include hdepth hagree

end

/-! ## No question is skipped -/

section
variable {why : Interrupt} (hdepth : L.maxDepth = L'.maxDepth) (hendless : L.patience = .endless)
  (hupTo : L'.patience = .upTo k why)
include hendless hupTo

include hdepth

end

end Eval

/-! ## Cancellation -/

open Eval

end LetLang
