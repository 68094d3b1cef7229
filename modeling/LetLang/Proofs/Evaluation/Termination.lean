import LetLang.Proofs.Evaluation.Changes
import LetLang.Tree.Parser

/-!
# Bounded runs end

A call continues in a body that comes from the store, and nothing about the caller's tree says how large it is. So
a run is not bounded by the size of what is evaluated, and without limits it need not end. With a limit it does:
either calls may nest only so deep, or the run is told to stop after so many questions.

What decreases is the pair of a *budget* and the size of the tree. The budget is what is left of the limit:
entering a body always costs some of it, and nothing gives it back, because after a task as many calls are under
way as before it and questions are never unasked (`Progress`). Between two calls the budget may stay as it is, and
then the tree gets smaller.

A run that may ask only so often also enters only so many bodies, since it asks before each of them. This is kept
as an inequality between the two counts, so that it can be added up along a run.
-/

set_option autoImplicit false

namespace LetLang

/-- Whether a function body was entered. -/
def Event.isCall : Event → Bool
  | .called _ _ => true
  | _ => false

/-- How many function bodies were entered. -/
def Machine.calls (m : Machine) : Nat := m.trace.countP Event.isCall

/-- Some limit bounds the run: a depth that calls may not exceed, or a number of questions after which it is
told to stop. -/
def Limits.IsFinite (limits : Limits) : Prop :=
  0 < limits.maxDepth ∨ ∃ k why, limits.patience = .upTo k why

namespace Eval

variable {limits : Limits}

/-! ## What a run cannot undo -/

/-- What holds between the start and the end of a task: calls are balanced, questions add up, and each call was
preceded by a question that was answered favourably. -/
structure Progress (limits : Limits) (m m' : Machine) : Prop where
  depth : m'.depth = m.depth
  asked : m.asked ≤ m'.asked
  calls : ∀ k why, limits.patience = .upTo k why →
    m'.calls + min k m.asked ≤ m.calls + min k m'.asked

theorem Progress.refl (m : Machine) : Progress limits m m :=
  ⟨rfl, Nat.le_refl _, fun _ _ _ => Nat.le_refl _⟩

theorem Progress.trans {m₁ m₂ m₃ : Machine} (h : Progress limits m₁ m₂)
    (h' : Progress limits m₂ m₃) : Progress limits m₁ m₃ where
  depth := h'.depth.trans h.depth
  asked := Nat.le_trans h.asked h'.asked
  calls k why hk := by
    have h₁ := h.calls k why hk
    have h₂ := h'.calls k why hk
    omega

/-- A change that neither calls nor asks. -/
theorem progress_of_eq {m m' : Machine} (hdepth : m'.depth = m.depth) (hasked : m'.asked = m.asked)
    (hcalls : m'.calls = m.calls) : Progress limits m m' where
  depth := hdepth
  asked := Nat.le_of_eq hasked.symm
  calls k why _ := by omega

theorem checked_calls (m : Machine) : m.checked.calls = m.calls :=
  List.countP_cons_of_neg (by simp [Event.isCall])

theorem progress_checked (m : Machine) : Progress limits m m.checked where
  depth := rfl
  asked := Nat.le_succ _
  calls k why _ := by
    have hcalls := checked_calls m
    have hasked : m.checked.asked = m.asked + 1 := rfl
    omega

theorem progress_bind (m : Machine) (scope : ScopeId) (x : String) (v : Value) :
    Progress limits m (m.bind scope x v) :=
  progress_of_eq rfl rfl (List.countP_cons_of_neg (by simp [Event.isCall]))

theorem progress_takeIdentity (m : Machine) : Progress limits m m.takeIdentity.2 :=
  progress_of_eq rfl rfl rfl

theorem progress_failed (m : Machine) (fault : Fault) :
    Progress limits m (m.note (.failed fault)) :=
  progress_of_eq rfl rfl (List.countP_cons_of_neg (by simp [Event.isCall]))

/-! ## Entering a body -/

theorem answer_eq_none {k asked : Nat} {why : Interrupt}
    (h : (Patience.upTo k why).answer asked = none) : asked < k := by
  simp only [Patience.answer] at h
  split at h
  · assumption
  · exact absurd h (by simp)

theorem bindAll_counts (scope : ScopeId) : ∀ (xs : List Ident) (vs : List Value) (m : Machine),
    (m.bindAll scope xs vs).depth = m.depth ∧ (m.bindAll scope xs vs).asked = m.asked ∧
      (m.bindAll scope xs vs).calls = m.calls := by
  intro xs
  induction xs with
  | nil => exact fun vs m => ⟨rfl, rfl, rfl⟩
  | cons x xs ih =>
    intro vs m
    cases vs with
    | nil => exact ⟨rfl, rfl, rfl⟩
    | cons v vs =>
      obtain ⟨hdepth, hasked, hcalls⟩ := ih vs (m.bind scope x.name v)
      exact ⟨hdepth, hasked, hcalls.trans (List.countP_cons_of_neg (by simp [Event.isCall]))⟩

/-- Entering a body: one level deeper, and one call more. -/
theorem called_counts (m : Machine) (outer : ScopeId) (params : List Ident) (args : List Value) :
    (m.called outer params args).2.depth = m.depth + 1 ∧
      (m.called outer params args).2.asked = m.asked ∧
      (m.called outer params args).2.calls = m.calls + 1 := by
  obtain ⟨hdepth, hasked, hcalls⟩ :=
    bindAll_counts m.store.frames.size params args ((m.enter args.length).enclose outer).2
  exact ⟨hdepth, hasked, hcalls.trans (List.countP_cons_of_pos rfl)⟩

/-- A call as a whole: it asks, enters the body one level deeper, and leaves it again. -/
theorem progress_call {m m' : Machine} {outer : ScopeId} {params : List Ident} {args : List Value}
    (hanswer : limits.patience.answer m.asked = none)
    (h : Progress limits (m.checked.called outer params args).2 m') :
    Progress limits m m'.leave := by
  obtain ⟨hdepth, hasked, hcalls⟩ := called_counts m.checked outer params args
  refine ⟨?_, ?_, fun k why hk => ?_⟩
  · -- leaving the body undoes the entering of it
    show m'.depth - 1 = m.depth
    rw [h.depth, hdepth]
    rfl
  · have hle := h.asked
    rw [hasked] at hle
    exact Nat.le_of_succ_le hle
  · -- the question before the call was answered, so it counts for both sides
    have hlt : m.asked < k := answer_eq_none (hk ▸ hanswer)
    have hle := h.calls k why hk
    have hasked' : m.checked.asked = m.asked + 1 := rfl
    have hcalls' := checked_calls m
    have hleave : m'.leave.calls = m'.calls ∧ m'.leave.asked = m'.asked := ⟨rfl, rfl⟩
    omega

/-! ## Every task makes progress -/

theorem progress_of_change {m m' : Machine} (h : Change m m') : Progress limits m m' := by
  cases h with
  | checked => exact progress_checked m
  | bound scope x v => exact progress_bind m scope x v
  | identity => exact progress_takeIdentity m
  | failed fault => exact progress_failed m fault

theorem progress_course : Course limits (Progress limits) where
  refl := .refl
  trans := .trans
  change := progress_of_change
  call _ _ _ hanswer _ h := progress_call hanswer h

/-- **Every task that ends has made progress**: as many calls are under way as before, and the counts of
questions and calls have moved together. -/
theorem progress_of_yields {t : Task} {m m' : Machine} {v : Value} (h : Yields limits t m v m') :
    Progress limits m m' :=
  progress_course.of_yields h

/-! ## Plans that end -/

/-- The plan ends. -/
def Plan.Ends (limits : Limits) (p : Plan) : Prop := ∃ v m', Resolves limits p v m'

theorem ends_done (v : Value) (m : Machine) : (Plan.done v m).Ends limits := ⟨v, m, .done⟩

/-- A plan ends if what it asks for does, and what it does with the answer. -/
theorem ends_ask {t : Task} {m : Machine} {next : Value → Machine → Plan}
    (ht : (t.plan limits m).Ends limits)
    (hnext : ∀ v m', Yields limits t m v m' → (next v m').Ends limits) :
    (Plan.ask t m next).Ends limits := by
  obtain ⟨a, m₁, ha⟩ := ht
  obtain ⟨v, m', hv⟩ := hnext a m₁ (yields_iff.mpr ha)
  exact ⟨v, m', .ask ha hv⟩

theorem ends_ask_done {t : Task} {m : Machine} (ht : (t.plan limits m).Ends limits) :
    (Plan.ask t m .done).Ends limits :=
  ends_ask ht fun v m' _ => ends_done v m'

theorem ends_operand {t : Task} {m : Machine} {next : Value → Machine → Plan}
    (ht : (t.plan limits m).Ends limits)
    (hnext : ∀ v m', Yields limits t m v m' → (next v m').Ends limits) :
    (Plan.operand t m next).Ends limits := by
  refine ends_ask ht fun v m' hy => ?_
  split
  · exact ends_done v m'
  · exact hnext v m' hy

theorem ends_checking {m : Machine} {next : Machine → Plan}
    (hnext : limits.patience.answer m.asked = none → (next m.checked).Ends limits) :
    (Plan.checking limits m next).Ends limits := by
  simp only [Plan.checking]
  split
  · exact ends_done _ _
  · next hnone => exact hnext hnone

/-! ## The budget -/

/-- What is left of the limit: levels of calls if these are limited, and favourable answers otherwise. -/
def budget (limits : Limits) (m : Machine) : Nat :=
  if 0 < limits.maxDepth then limits.maxDepth.toNat - m.depth
  else
    match limits.patience with
    | .upTo k _ => k - m.asked
    | .endless => 0

theorem budget_le {m m' : Machine} (h : Progress limits m m') :
    budget limits m' ≤ budget limits m := by
  have hasked := h.asked
  simp only [budget, h.depth]
  split
  · exact Nat.le_refl _
  · cases limits.patience with
    | upTo k why => exact Nat.sub_le_sub_left hasked k
    | endless => exact Nat.le_refl _

theorem budget_le_of_yields {t : Task} {m m' : Machine} {v : Value} {b : Nat}
    (hy : Yields limits t m v m') (hm : budget limits m ≤ b) : budget limits m' ≤ b :=
  Nat.le_trans (budget_le (progress_of_yields hy)) hm

/-- Entering a body costs some of the budget. -/
theorem budget_called_lt {m : Machine} (outer : ScopeId) (params : List Ident) (args : List Value)
    (hfin : limits.IsFinite) (hanswer : limits.patience.answer m.asked = none)
    (hdeep : limits.forbidsCall m.depth = false) :
    budget limits (m.checked.called outer params args).2 < budget limits m := by
  obtain ⟨hdepth, hasked, -⟩ := called_counts m.checked outer params args
  have hdepth' : m.checked.depth = m.depth := rfl
  have hasked' : m.checked.asked = m.asked + 1 := rfl
  simp only [budget, hdepth, hasked, hdepth', hasked']
  split
  · next hpos =>
    simp only [Limits.forbidsCall, hpos, decide_true, Bool.true_and, decide_eq_false_iff_not] at hdeep
    omega
  · next hpos =>
    rcases hfin with hfin | ⟨k, why, hk⟩
    · exact absurd hfin hpos
    · rw [hk] at hanswer ⊢
      have hlt := answer_eq_none hanswer
      show k - (m.asked + 1) < k - m.asked
      omega

/-! ## Budget and size decrease together -/

/-- The size of the tree that a task works on. A call works on none: its body is not part of it. -/
noncomputable def Task.size : Task → Nat
  | .expr _ e => sizeOf e
  | .apply _ _ => 0
  | .stmt _ s => sizeOf s
  | .stmts _ ss _ => sizeOf ss
  | .program _ ss _ => sizeOf ss

/-- Tasks on trees smaller than `n` end on machines with a budget of at most `b`. -/
def EndBelow (limits : Limits) (b n : Nat) : Prop :=
  ∀ (t : Task) (m : Machine), budget limits m ≤ b → t.size < n → (t.plan limits m).Ends limits

theorem EndBelow.mono {b n k : Nat} (h : EndBelow limits b n) (hk : k ≤ n) :
    EndBelow limits b k :=
  fun t m hm ht => h t m hm (Nat.lt_of_lt_of_le ht hk)

theorem sizeOf_stmts_lt (b : Block) : sizeOf b.stmts < sizeOf b := by
  cases b
  simp only [Block.stmts, Block.mk.sizeOf_spec]
  omega

section
variable {b : Nat} {m : Machine}

theorem ends_operands {n : Nat} {scope : ScopeId} (ih : EndBelow limits b n) :
    ∀ {es : List Expr} {m : Machine} {next : List Value → Machine → Plan}, sizeOf es ≤ n →
      budget limits m ≤ b → (∀ vs m', budget limits m' ≤ b → (next vs m').Ends limits) →
      (Plan.operands scope es m next).Ends limits := by
  intro es
  induction es with
  | nil => exact fun _ hm hnext => hnext [] _ hm
  | cons e es ihes =>
    intro m next hn hm hnext
    simp only [List.cons.sizeOf_spec] at hn
    refine ends_operand (ih _ m hm (by simp only [Task.size]; omega)) fun v m₁ hy => ?_
    exact ihes (by omega) (budget_le_of_yields hy hm) fun vs m' hm' => hnext (v :: vs) m' hm'

theorem ends_expr {scope : ScopeId} {e : Expr} (ih : EndBelow limits b (sizeOf e))
    (hm : budget limits m ≤ b) : (Task.planExpr scope m e).Ends limits := by
  cases e with
  | missing | ident _ | int _ _ | bool _ _ | fn _ _ _ => exact ends_done _ _
  | unary t op e =>
    refine ends_operand (ih _ m hm ?_) fun v m' _ => ends_done _ _
    simp only [Task.size, Expr.unary.sizeOf_spec]
    omega
  | binary t op l r =>
    refine ends_operand (ih _ m hm ?_) fun v m₁ h₁ =>
      ends_operand (ih _ m₁ (budget_le_of_yields h₁ hm) ?_) fun w m₂ _ => ends_done _ _
    · simp only [Task.size, Expr.binary.sizeOf_spec]
      omega
    · simp only [Task.size, Expr.binary.sizeOf_spec]
      omega
  | ifThen t c body =>
    have hbody := sizeOf_stmts_lt body
    refine ends_operand (ih _ m hm ?_) fun v m₁ h₁ => ?_
    · simp only [Task.size, Expr.ifThen.sizeOf_spec]
      omega
    · split
      · refine ends_ask_done (ih _ m₁ (budget_le_of_yields h₁ hm) ?_)
        simp only [Task.size, Expr.ifThen.sizeOf_spec]
        omega
      · exact ends_done _ _
  | ifElse t c body other =>
    have hbody := sizeOf_stmts_lt body
    have hother := sizeOf_stmts_lt other
    refine ends_operand (ih _ m hm ?_) fun v m₁ h₁ => ?_
    · simp only [Task.size, Expr.ifElse.sizeOf_spec]
      omega
    · split
      · refine ends_ask_done (ih _ m₁ (budget_le_of_yields h₁ hm) ?_)
        simp only [Task.size, Expr.ifElse.sizeOf_spec]
        omega
      · refine ends_ask_done (ih _ m₁ (budget_le_of_yields h₁ hm) ?_)
        simp only [Task.size, Expr.ifElse.sizeOf_spec]
        omega
  | call t f args =>
    refine ends_operand (ih _ m hm ?_) fun v m₁ h₁ => ?_
    · simp only [Task.size, Expr.call.sizeOf_spec]
      omega
    · -- the call itself is smaller than its expression: what its body costs is for the budget to pay
      refine ends_operands ih ?_ (budget_le_of_yields h₁ hm) fun vs m' hm' =>
        ends_ask_done (ih _ m' hm' ?_)
      · simp only [Expr.call.sizeOf_spec]
        omega
      · simp only [Task.size, Expr.call.sizeOf_spec]
        omega

theorem ends_apply (hfin : limits.IsFinite) (args : List Value) (f : Value)
    (ih : ∀ (t : Task) (m' : Machine), budget limits m' < budget limits m →
      (t.plan limits m').Ends limits) :
    (Task.planApply limits m args f).Ends limits := by
  cases f with
  | fn id params body scope =>
    simp only [Task.planApply]
    split
    · exact ends_done _ _
    · refine ends_checking fun hanswer => ?_
      split
      · exact ends_done _ _
      · next hdeep =>
        have hlt := budget_called_lt scope params args hfin hanswer (Bool.eq_false_iff.mpr hdeep)
        exact ends_ask (ih _ _ hlt) fun v m' _ => ends_done _ _
  | _ => exact ends_done _ _

theorem ends_stmt {scope : ScopeId} {s : Stmt} (ih : EndBelow limits b (sizeOf s))
    (hm : budget limits m ≤ b) : (Task.planStmt scope m s).Ends limits := by
  cases s with
  | bind t x e =>
    refine ends_operand (ih _ m hm ?_) fun v m' _ => ends_done _ _
    simp only [Task.size, Stmt.bind.sizeOf_spec]
    omega
  | ret t e =>
    refine ends_operand (ih _ m hm ?_) fun v m' _ => ends_done _ _
    simp only [Task.size, Stmt.ret.sizeOf_spec]
    omega
  | expr t e =>
    refine ends_ask_done (ih _ m hm ?_)
    simp only [Task.size, Stmt.expr.sizeOf_spec]
    omega
  | block body =>
    have hbody := sizeOf_stmts_lt body
    refine ends_ask_done (ih _ m hm ?_)
    simp only [Task.size, Stmt.block.sizeOf_spec]
    omega

theorem ends_stmts {scope : ScopeId} {ss : List Stmt} {last : Value}
    (ih : EndBelow limits b (sizeOf ss)) (hm : budget limits m ≤ b) :
    (Task.planStmts limits scope m last ss).Ends limits := by
  cases ss with
  | nil => exact ends_done _ _
  | cons s ss =>
    rw [Task.planStmts]
    refine ends_checking fun _ => ?_
    have hchecked : budget limits m.checked ≤ b :=
      Nat.le_trans (budget_le (progress_checked m)) hm
    refine ends_ask (ih _ _ hchecked ?_) fun v m' hy => ?_
    · simp only [Task.size, List.cons.sizeOf_spec]
      omega
    · split
      · exact ends_done _ _
      · refine ends_ask_done (ih _ m' ?_ ?_)
        · exact budget_le_of_yields hy hchecked
        · simp only [Task.size, List.cons.sizeOf_spec]
          omega

theorem ends_program {scope : ScopeId} {ss : Program} {last : Value}
    (ih : EndBelow limits b (sizeOf ss)) (hm : budget limits m ≤ b) :
    (Task.planProgram limits scope m last ss).Ends limits := by
  cases ss with
  | nil => exact ends_done _ _
  | cons s ss =>
    rw [Task.planProgram]
    refine ends_checking fun _ => ?_
    have hchecked : budget limits m.checked ≤ b :=
      Nat.le_trans (budget_le (progress_checked m)) hm
    refine ends_ask (ih _ _ hchecked ?_) fun v m' hy => ?_
    · simp only [Task.size, List.cons.sizeOf_spec]
      omega
    · split
      · exact ends_done _ _
      · exact ends_done _ _
      · refine ends_ask_done (ih _ m' ?_ ?_)
        · exact budget_le_of_yields hy hchecked
        · simp only [Task.size, List.cons.sizeOf_spec]
          omega

end

/-- The induction on the size, for a budget below which every task ends. -/
theorem endBelow_of_smaller {b : Nat} (hfin : limits.IsFinite)
    (ih : ∀ (t : Task) (m : Machine), budget limits m < b → (t.plan limits m).Ends limits) :
    ∀ n, EndBelow limits b n := by
  intro n
  induction n with
  | zero => exact fun t m _ ht => absurd ht (Nat.not_lt_zero _)
  | succ n ihn =>
    intro t m hm ht
    have hsmaller : EndBelow limits b t.size := ihn.mono (Nat.le_of_lt_succ ht)
    cases t with
    | expr scope e => exact ends_expr hsmaller hm
    | apply f args =>
      -- the only task with nothing smaller to go on with, and the only one that spends from the budget
      exact ends_apply hfin args f fun t m' hlt => ih t m' (Nat.lt_of_lt_of_le hlt hm)
    | stmt scope s => exact ends_stmt hsmaller hm
    | stmts scope ss last => exact ends_stmts hsmaller hm
    | program scope ss last => exact ends_program hsmaller hm

/-- The induction on the budget. -/
theorem ends_of_budget_lt (hfin : limits.IsFinite) : ∀ (b : Nat) (t : Task) (m : Machine),
    budget limits m < b → (t.plan limits m).Ends limits := by
  intro b
  induction b with
  | zero => exact fun t m hm => absurd hm (Nat.not_lt_zero _)
  | succ b ihb =>
    intro t m hm
    exact endBelow_of_smaller hfin ihb (t.size + 1) t m (Nat.le_of_lt_succ hm) (Nat.lt_succ_self _)

end Eval

/-! ## Evaluation -/

open Eval

/-- The task of evaluating a node. -/
def Node.task (scope : ScopeId) : Node → Task
  | .program p => .program scope p .absent
  | .stmt s => .stmt scope s
  | .expr e => .expr scope e

theorem Machine.eval_eq_run (m : Machine) (limits : Limits) (fuel : Nat) (scope : ScopeId)
    (n : Node) : m.eval limits fuel scope n = (n.task scope).run limits fuel { m with depth := 0 } := by
  cases n <;> rfl

/-- **A bounded run ends.** Under a limit to the depth of calls, or told to stop after some number of
questions, evaluation of any node on any machine gives a result, the same for all sufficient fuel. In a run that
is told to stop after `k` questions, at most as many function bodies are entered as favourable answers were left at
its start. -/
theorem eval_ends_of_isFinite (m : Machine) {limits : Limits} (hfin : limits.IsFinite)
    (scope : ScopeId) (n : Node) :
    ∃ enough v m', (∀ fuel ≥ enough, m.eval limits fuel scope n = some (v, m')) ∧
      ∀ k why, limits.patience = .upTo k why → m'.calls ≤ m.calls + (k - m.asked) := by
  obtain ⟨v, m', hends⟩ := ends_of_budget_lt hfin _ (n.task scope) { m with depth := 0 }
    (Nat.lt_succ_self _)
  obtain ⟨enough, henough⟩ := run_of_resolves hends
  refine ⟨enough, v, m', fun fuel hfuel => ?_, fun k why hk => ?_⟩
  · rw [Machine.eval_eq_run]
    exact henough fuel hfuel
  · have hcalls : m'.calls + min k m.asked ≤ m.calls + min k m'.asked :=
      (progress_of_yields (yields_iff.mpr hends)).calls k why hk
    omega

/-- A function that calls itself for ever, without a limit to the depth: five favourable answers are enough for
at most five calls. -/
theorem eval_ends_of_isFinite_loop :
    Limits.IsFinite ⟨0, .upTo 5 .canceled⟩ ∧ ∃ enough v m',
      (∀ fuel ≥ enough, (Machine.newScope {}).2.eval ⟨0, .upTo 5 .canceled⟩ fuel 0 (.program
        (Program.ofSource (.ofString "let f = fn() \x7b f() \x7d; f()")).1) = some (v, m')) ∧
      m'.calls ≤ 5 := by
  have hfin : Limits.IsFinite ⟨0, .upTo 5 .canceled⟩ := Or.inr ⟨5, .canceled, rfl⟩
  obtain ⟨enough, v, m', h, hcalls⟩ := eval_ends_of_isFinite (Machine.newScope {}).2 hfin 0
    (.program (Program.ofSource (.ofString "let f = fn() \x7b f() \x7d; f()")).1)
  exact ⟨hfin, enough, v, m', h, hcalls 5 .canceled rfl⟩

end LetLang
