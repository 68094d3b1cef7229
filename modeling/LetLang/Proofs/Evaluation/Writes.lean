import LetLang.Proofs.Evaluation.Termination
import LetLang.Proofs.Store
import LetLang.Tree.Parser

/-!
# What evaluation writes

Scopes are shared: a function keeps the scope its literal was evaluated in, and its body runs in a scope inside that
one. Still, evaluating something in a scope changes no other scope that was there before. A binding writes to the scope
it is evaluated in; branches of conditionals and blocks are evaluated in that same scope; and a call writes to a scope
that it has just added. So what a node may change can be read off its text: the names that it binds outside the bodies
of function literals (`Node.lets`), in its own scope.

`Store.WritesOnly` says this between two stores. It composes along a run, and a call, which writes to a new scope only,
keeps every old one as it is (`Store.Keeps`). What the body of the called function binds does not matter for this.
-/

set_option autoImplicit false

namespace LetLang

/-! ## Names that a tree binds

Those bound outside the bodies of function literals. -/

mutual

def Expr.lets : Expr → List String
  | .missing => []
  | .ident _ => []
  | .int _ _ => []
  | .bool _ _ => []
  | .unary _ _ e => e.lets
  | .binary _ _ l r => l.lets ++ r.lets
  | .ifThen _ c b => c.lets ++ b.lets
  | .ifElse _ c b b' => c.lets ++ (b.lets ++ b'.lets)
  | .fn _ _ _ => []
  | .call _ f args => f.lets ++ Expr.allLets args

def Expr.allLets : List Expr → List String
  | [] => []
  | e :: es => e.lets ++ Expr.allLets es

def Stmt.lets : Stmt → List String
  | .bind _ x e => x.name :: e.lets
  | .ret _ e => e.lets
  | .expr _ e => e.lets
  | .block b => b.lets

def Block.lets : Block → List String
  | .mk _ ss => Stmt.allLets ss

def Stmt.allLets : List Stmt → List String
  | [] => []
  | s :: ss => s.lets ++ Stmt.allLets ss

end

def Node.lets : Node → List String
  | .program ss => Stmt.allLets ss
  | .stmt s => s.lets
  | .expr e => e.lets

theorem Block.allLets_stmts (b : Block) : Stmt.allLets b.stmts = b.lets := by
  cases b with
  | mk t ss => rw [Block.stmts, Block.lets]

theorem Expr.lets_subset_of_mem {es : List Expr} {e : Expr} (h : e ∈ es) : e.lets ⊆ Expr.allLets es := by
  induction es with
  | nil => exact absurd h (by simp)
  | cons e' es ih =>
    rw [Expr.allLets]
    rcases List.mem_cons.mp h with rfl | h
    · exact List.subset_append_left _ _
    · exact List.Subset.trans (ih h) (List.subset_append_right _ _)

/-! ## Stores -/

namespace Store

variable {scope : ScopeId} {names names' : List String} {s s' s₁ s₂ s₃ : Store}

/-- Every scope of `s` is still there, as it was. -/
def Keeps (s s' : Store) : Prop := ∀ i < s.frames.size, s'.frames[i]? = s.frames[i]?

/-- Every scope of `s` is still there, as it was but for one. That one has the same scope around it, has lost no
name, and of its names only some may have got another value. -/
structure WritesOnly (scope : ScopeId) (names : List String) (s s' : Store) : Prop where
  others : ∀ i < s.frames.size, i ≠ scope → s'.frames[i]? = s.frames[i]?
  own : ∀ f, s.frames[scope]? = some f → ∃ f', s'.frames[scope]? = some f' ∧ f'.outer = f.outer ∧
    (∀ x, (f.get? x).isSome → (f'.get? x).isSome) ∧ ∀ x, x ∉ names → f'.get? x = f.get? x

theorem Keeps.writesOnly (h : s.Keeps s') (scope : ScopeId) (names : List String) :
    WritesOnly scope names s s' := by
  refine ⟨fun i hi _ => h i hi, fun f hf => ⟨f, ?_, rfl, fun _ hx => hx, fun _ _ => rfl⟩⟩
  obtain ⟨hi, -⟩ := Array.getElem?_eq_some_iff.mp hf
  rw [h scope hi, hf]

theorem WritesOnly.refl (scope : ScopeId) (names : List String) (s : Store) : WritesOnly scope names s s :=
  Keeps.writesOnly (fun _ _ => rfl) scope names

theorem WritesOnly.size_le (h : WritesOnly scope names s s') : s.frames.size ≤ s'.frames.size := by
  refine Nat.le_of_not_lt fun hlt => ?_
  have hnone : s'.frames[s'.frames.size]? = none := Array.getElem?_eq_none (Nat.le_refl _)
  obtain ⟨f, hsome⟩ : ∃ f, s.frames[s'.frames.size]? = some f := ⟨_, Array.getElem?_eq_getElem hlt⟩
  -- the first position that is missing would be one of a scope that was there
  by_cases hscope : s'.frames.size = scope
  · rw [hscope] at hsome hnone
    obtain ⟨f', hf', -⟩ := h.own _ hsome
    rw [hnone] at hf'
    exact absurd hf' (by simp)
  · have heq := h.others _ hlt hscope
    rw [hnone, hsome] at heq
    exact absurd heq (by simp)

theorem WritesOnly.trans (h : WritesOnly scope names s₁ s₂) (h' : WritesOnly scope names s₂ s₃) :
    WritesOnly scope names s₁ s₃ := by
  refine ⟨fun i hi hne => ?_, fun f hf => ?_⟩
  · rw [h'.others i (Nat.lt_of_lt_of_le hi h.size_le) hne, h.others i hi hne]
  · obtain ⟨f₂, hf₂, houter₂, hkept₂, hsame₂⟩ := h.own f hf
    obtain ⟨f₃, hf₃, houter₃, hkept₃, hsame₃⟩ := h'.own f₂ hf₂
    refine ⟨f₃, hf₃, houter₃.trans houter₂, fun x hx => hkept₃ x (hkept₂ x hx), fun x hx => ?_⟩
    rw [hsame₃ x hx, hsame₂ x hx]

theorem WritesOnly.mono (h : WritesOnly scope names s s') (hsub : names ⊆ names') :
    WritesOnly scope names' s s' := by
  refine ⟨h.others, fun f hf => ?_⟩
  obtain ⟨f', hf', houter, hkept, hsame⟩ := h.own f hf
  exact ⟨f', hf', houter, hkept, fun x hx => hsame x fun hx' => hx (hsub hx')⟩

theorem writesOnly_set (s : Store) (scope : ScopeId) {x : String} (v : Value) (hx : x ∈ names) :
    WritesOnly scope names s (s.set scope x v) := by
  refine ⟨fun i _ hne => ?_, fun f hf => ⟨f.set x v, ?_, rfl, fun y hy => ?_, fun y hy => ?_⟩⟩
  · simp only [Store.set, Array.getElem?_modify, if_neg (Ne.symm hne)]
  · simp only [Store.set, Array.getElem?_modify, if_true, hf, Option.map_some]
  · by_cases heq : y = x
    · rw [heq, Frame.get?_set_self]
      rfl
    · rwa [Frame.get?_set_of_ne f v heq]
  · exact Frame.get?_set_of_ne f v fun heq => hy (heq ▸ hx)

theorem keeps_enclose (s : Store) (outer : ScopeId) : s.Keeps (s.enclose outer).2 := by
  intro i hi
  simp only [Store.enclose, Array.getElem?_push, if_neg (Nat.ne_of_lt hi)]

end Store

/-! ## Machines -/

open Store

theorem Machine.writesOnly_bindAll (scope : ScopeId) : ∀ (xs : List Ident) (vs : List Value) (m : Machine),
    WritesOnly scope (xs.map Ident.name) m.store (m.bindAll scope xs vs).store := by
  intro xs
  induction xs with
  | nil => exact fun _ m => .refl _ _ _
  | cons x xs ih =>
    intro vs m
    cases vs with
    | nil => exact .refl _ _ _
    | cons v vs =>
      have hrest := (ih vs (m.bind scope x.name v)).mono (List.subset_cons_self x.name (xs.map Ident.name))
      exact (writesOnly_set m.store scope v List.mem_cons_self).trans hrest

/-- The parameters are written to the new scope. -/
theorem Machine.keeps_called (m : Machine) (outer : ScopeId) (params : List Ident) (args : List Value) :
    m.store.Keeps (m.called outer params args).2.store := by
  intro i hi
  have hwrites := Machine.writesOnly_bindAll m.store.frames.size params args
    ((m.enter args.length).enclose outer).2
  have hsize : i < ((m.enter args.length).enclose outer).2.store.frames.size := by
    show i < (m.store.frames.push _).size
    rw [Array.size_push]
    omega
  exact (hwrites.others i hsize (Nat.ne_of_lt hi)).trans (keeps_enclose m.store outer i hi)

namespace Eval

variable {limits : Limits} {scope : ScopeId} {names : List String} {m₀ m : Machine}

/-! ## Every task -/

/-- What a task may write. -/
def Task.Writes (s s' : Store) : Task → Prop
  | .expr scope e => WritesOnly scope e.lets s s'
  | .apply _ _ => s.Keeps s'
  | .stmt scope st => WritesOnly scope st.lets s s'
  | .stmts scope ss _ => WritesOnly scope (Stmt.allLets ss) s s'
  | .program scope ss _ => WritesOnly scope (Stmt.allLets ss) s s'

def writeSpec : Spec where
  pre _ _ := True
  post t m _ m' := t.Writes m.store m'.store

/-- The plan writes no more than this beyond what was written since `m₀`. -/
def Plan.Writes (limits : Limits) (scope : ScopeId) (names : List String) (m₀ : Machine) (p : Plan) : Prop :=
  p.Meets limits writeSpec fun _ m' => WritesOnly scope names m₀.store m'.store

theorem writes_ask_done {t : Task} (h : WritesOnly scope names m₀.store m.store)
    (ht : ∀ s s', t.Writes s s' → WritesOnly scope names s s') :
    (Plan.ask t m .done).Writes limits scope names m₀ :=
  ⟨trivial, fun _ m' _ hp => h.trans (ht m.store m'.store hp)⟩

theorem writes_operand {e : Expr} {next : Value → Machine → Plan} (h : WritesOnly scope names m₀.store m.store)
    (he : e.lets ⊆ names) (hnext : ∀ v m', WritesOnly scope names m₀.store m'.store →
      (next v m').Writes limits scope names m₀) :
    (Plan.operand (.expr scope e) m next).Writes limits scope names m₀ := by
  have hpost : ∀ m' : Machine, WritesOnly scope e.lets m.store m'.store → WritesOnly scope names m₀.store m'.store :=
    fun m' hp => h.trans (hp.mono he)
  exact meets_operand trivial (fun _ m' _ hp _ => hpost m' hp) fun v m' _ hp _ => hnext v m' (hpost m' hp)

theorem writes_branch {b : Block} (h : WritesOnly scope names m₀.store m.store) (hb : b.lets ⊆ names) :
    (Plan.ask (.stmts scope b.stmts .absent) m .done).Writes limits scope names m₀ := by
  refine writes_ask_done h fun s s' ht => ?_
  rw [Task.Writes, Block.allLets_stmts] at ht
  exact ht.mono hb

theorem writes_expr (scope : ScopeId) (m : Machine) (e : Expr) :
    (Task.planExpr scope m e).Writes limits scope e.lets m := by
  have hstart {names : List String} : WritesOnly scope names m.store m.store := .refl _ _ _
  cases e with
  | missing | ident _ | int _ _ | bool _ _ | fn _ _ _ => exact hstart
  | unary t op e =>
    rw [Expr.lets]
    exact writes_operand hstart (List.Subset.refl _) fun v m' h => h
  | binary t op l r =>
    rw [Expr.lets]
    refine writes_operand hstart (List.subset_append_left _ _) fun v m₁ h₁ => ?_
    exact writes_operand h₁ (List.subset_append_right _ _) fun w m₂ h₂ => h₂
  | ifThen t c b =>
    rw [Expr.lets]
    refine writes_operand hstart (List.subset_append_left _ _) fun v m₁ h₁ => ?_
    split
    · exact writes_branch h₁ (List.subset_append_right _ _)
    · exact h₁
  | ifElse t c b b' =>
    rw [Expr.lets]
    refine writes_operand hstart (List.subset_append_left _ _) fun v m₁ h₁ => ?_
    split
    · exact writes_branch h₁ (List.subset_append_of_subset_right _ (List.subset_append_left _ _))
    · exact writes_branch h₁ (List.subset_append_of_subset_right _ (List.subset_append_right _ _))
  | call t f args =>
    rw [Expr.lets]
    refine writes_operand hstart (List.subset_append_left _ _) fun v m₁ h₁ => ?_
    refine meets_operands (I := fun m' => WritesOnly scope (f.lets ++ Expr.allLets args) m.store m'.store)
      (P := fun _ _ => True) (fun _ _ _ _ => trivial) (fun e he m₂ w m₃ h hp => ⟨?_, trivial⟩) h₁
      (fun _ _ h _ => h) fun vs m₂ _ h₂ _ => ?_
    · have hsub := List.Subset.trans (Expr.lets_subset_of_mem he) (List.subset_append_right f.lets _)
      exact h.trans (hp.mono hsub)
    · exact writes_ask_done h₂ fun s s' hkeeps => hkeeps.writesOnly _ _

theorem writes_stmt (scope : ScopeId) (m : Machine) (s : Stmt) :
    (Task.planStmt scope m s).Writes limits scope s.lets m := by
  have hstart {names : List String} : WritesOnly scope names m.store m.store := .refl _ _ _
  cases s with
  | bind t x e =>
    rw [Stmt.lets]
    refine writes_operand hstart (List.subset_cons_self _ _) fun v m' h => ?_
    exact h.trans (writesOnly_set m'.store scope v List.mem_cons_self)
  | ret t e =>
    rw [Stmt.lets]
    exact writes_operand hstart (List.Subset.refl _) fun v m' h => h
  | expr t e =>
    rw [Stmt.lets]
    exact writes_ask_done hstart fun _ _ ht => ht
  | block b =>
    rw [Stmt.lets]
    exact writes_branch hstart (List.Subset.refl _)

theorem writes_stmts (scope : ScopeId) (m : Machine) (last : Value) (ss : List Stmt) :
    (Task.planStmts limits scope m last ss).Writes limits scope (Stmt.allLets ss) m := by
  have hstart {names : List String} : WritesOnly scope names m.store m.store := .refl _ _ _
  cases ss with
  | nil => exact hstart
  | cons s ss =>
    rw [Task.planStmts, Stmt.allLets]
    refine meets_checking (fun _ _ => hstart) fun _ => ⟨trivial, fun v m' _ hp => ?_⟩
    have h : WritesOnly scope (s.lets ++ Stmt.allLets ss) m.store m'.store :=
      hp.mono (List.subset_append_left _ _)
    dsimp only
    split
    · exact h
    · exact writes_ask_done h fun _ _ ht => ht.mono (List.subset_append_right _ _)

theorem writes_program (scope : ScopeId) (m : Machine) (last : Value) (ss : Program) :
    (Task.planProgram limits scope m last ss).Writes limits scope (Stmt.allLets ss) m := by
  have hstart {names : List String} : WritesOnly scope names m.store m.store := .refl _ _ _
  cases ss with
  | nil => exact hstart
  | cons s ss =>
    rw [Task.planProgram, Stmt.allLets]
    refine meets_checking (fun _ _ => hstart) fun _ => ⟨trivial, fun v m' _ hp => ?_⟩
    have h : WritesOnly scope (s.lets ++ Stmt.allLets ss) m.store m'.store :=
      hp.mono (List.subset_append_left _ _)
    cases v with
    | returned id w => exact h
    | error fault => exact h
    | _ => exact writes_ask_done h fun _ _ ht => ht.mono (List.subset_append_right _ _)

theorem meets_writes_apply (m : Machine) (args : List Value) (f : Value) :
    (Task.planApply limits m args f).Meets limits writeSpec fun _ m' => m.store.Keeps m'.store := by
  cases f with
  | fn id params body outer =>
    simp only [Task.planApply]
    split
    · exact fun _ _ => rfl
    · refine meets_checking (fun _ _ _ _ => rfl) fun _ => ?_
      split
      · exact fun _ _ => rfl
      · refine ⟨trivial, fun v m' _ hp i hi => ?_⟩
        -- the body writes to the new scope, and so to none of the old ones
        have hcalled := Machine.keeps_called m.checked outer params args
        have hsize := (hcalled.writesOnly outer []).size_le
        have hbody := hp.others i (Nat.lt_of_lt_of_le hi hsize) (Nat.ne_of_lt hi)
        exact hbody.trans (hcalled i hi)
  | _ => exact fun _ _ => rfl

theorem meets_writes (t : Task) (m : Machine) :
    (t.plan limits m).Meets limits writeSpec (writeSpec.post t m) := by
  cases t with
  | expr scope e => exact writes_expr scope m e
  | apply f args => exact meets_writes_apply m args f
  | stmt scope s => exact writes_stmt scope m s
  | stmts scope ss last => exact writes_stmts scope m last ss
  | program scope ss last => exact writes_program scope m last ss

theorem writes_of_yields {t : Task} {m' : Machine} {v : Value} (h : Yields limits t m v m') :
    t.Writes m.store m'.store :=
  (Spec.holds (S := writeSpec) trivial (fun t m _ _ => meets_writes t m) .start).2 v m' h

end Eval

/-! ## Evaluation -/

/-- **Evaluation writes only to its own scope**, and there only to names that are bound in the node outside the bodies
of function literals: for a call these are the names bound in the callee and in the arguments. The call itself, of
whatever function, changes no scope that was there before. -/
theorem node_writesOnly (limits : Limits) (fuel : Nat) (m m' : Machine) (v : Value) :
    (∀ scope node, Eval.node limits fuel scope node m = some (v, m') →
      m.store.WritesOnly scope node.lets m'.store) ∧
    ∀ f args, Eval.apply limits fuel f args m = some (v, m') → m.store.Keeps m'.store := by
  refine ⟨fun scope node h => ?_, fun f args h => ?_⟩
  · cases node with
    | program p => exact Eval.writes_of_yields (t := .program scope p .absent) ⟨fuel, h⟩
    | stmt s => exact Eval.writes_of_yields (t := .stmt scope s) ⟨fuel, h⟩
    | expr e => exact Eval.writes_of_yields (t := .expr scope e) ⟨fuel, h⟩
  · exact Eval.writes_of_yields (t := .apply f args) ⟨fuel, h⟩

/-- A conditional binds in the scope around it, and a call in a scope of its own. -/
def scopedBindings : Program := (Program.ofSource (.ofString
  "let f = fn(x) \x7b let y = x; y \x7d; if (true) \x7b let z = f(1) \x7d; f(2)")).1

/-- The run ends, and in the outermost scope, where `x` has a value, it binds nothing but `f` and `z`. -/
theorem node_writesOnly_scopedBindings : ∃ v m',
    Eval.node {} 40 0 (.program scopedBindings) ((Machine.newScope {}).2.bind 0 "x" .null) = some (v, m') ∧
    Store.WritesOnly 0 ["f", "z"] ((Machine.newScope {}).2.bind 0 "x" .null).store m'.store := by
  have hends : (Eval.node {} 40 0 (.program scopedBindings)
      ((Machine.newScope {}).2.bind 0 "x" .null)).isSome = true := by decide +kernel
  obtain ⟨⟨v, m'⟩, hv⟩ := Option.isSome_iff_exists.mp hends
  have hlets : (Node.program scopedBindings).lets = ["f", "z"] := by decide +kernel
  refine ⟨v, m', hv, ?_⟩
  rw [← hlets]
  exact (node_writesOnly {} 40 _ m' v).1 0 (.program scopedBindings) hv

end LetLang
