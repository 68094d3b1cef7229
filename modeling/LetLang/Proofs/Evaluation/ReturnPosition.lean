import LetLang.Proofs.Evaluation.Returns
import LetLang.Tree.Parser

/-!
# Returns in statement position

A condition on the text of a program under which returned values stay where they belong: every `return` is a
statement of the program or of a function body, or of a branch of a conditional that is itself such a statement, and
so on. Only then does what follows a `return` in its block have nothing to do with the value it yields.

Whether a `return` may stand somewhere is handed down the tree as a flag. It is set for the program and for function
bodies, kept by statements that are expressions and by the branches of conditionals, and lost in every part whose value
something computes with.
-/

set_option autoImplicit false

namespace LetLang

mutual

/-- Whether all returns in an expression are in statement position, when `may` says whether one may stand in
this place. -/
def Expr.wellPlaced : Bool → Expr → Bool
  | _, .missing => true
  | _, .ident _ => true
  | _, .int _ _ => true
  | _, .bool _ _ => true
  | _, .unary _ _ e => e.wellPlaced false
  | _, .binary _ _ l r => l.wellPlaced false && r.wellPlaced false
  | may, .ifThen _ c b => c.wellPlaced false && b.wellPlaced may
  | may, .ifElse _ c b b' => c.wellPlaced false && b.wellPlaced may && b'.wellPlaced may
  | _, .fn _ _ body => body.wellPlaced true
  | _, .call _ f args => f.wellPlaced false && Expr.allWellPlaced args

/-- The same for the arguments of a call, where none may stand. -/
def Expr.allWellPlaced : List Expr → Bool
  | [] => true
  | e :: es => e.wellPlaced false && Expr.allWellPlaced es

/-- The same for a statement. -/
def Stmt.wellPlaced : Bool → Stmt → Bool
  | _, .bind _ _ e => e.wellPlaced false
  | may, .ret _ e => may && e.wellPlaced false
  | may, .expr _ e => e.wellPlaced may
  | may, .block b => b.wellPlaced may

/-- The same for a block. -/
def Block.wellPlaced : Bool → Block → Bool
  | may, .mk _ ss => Stmt.allWellPlaced may ss

/-- The same for a list of statements. -/
def Stmt.allWellPlaced : Bool → List Stmt → Bool
  | _, [] => true
  | may, s :: ss => s.wellPlaced may && Stmt.allWellPlaced may ss

end

theorem Block.allWellPlaced_stmts (may : Bool) (b : Block) :
    Stmt.allWellPlaced may b.stmts = b.wellPlaced may := by
  cases b with
  | mk t ss => rw [Block.stmts, Block.wellPlaced]

theorem Expr.wellPlaced_of_mem {es : List Expr} (h : Expr.allWellPlaced es = true) :
    ∀ e ∈ es, e.wellPlaced false = true := by
  induction es with
  | nil => exact fun e he => absurd he (by simp)
  | cons e es ih =>
    rw [Expr.allWellPlaced, Bool.and_eq_true] at h
    intro e' he
    rcases List.mem_cons.mp he with rfl | he
    · exact h.1
    · exact ih h.2 e' he

/-- A value all of whose functions have their returns in place, and that is marked at most once. -/
def Value.WellPlaced : Value → Prop
  | .returned _ v => v.WellPlaced ∧ v.Plain
  | .fn _ _ body _ => body.wellPlaced true = true
  | _ => True

/-- What names are bound to and functions are called with. -/
def Value.Ordinary (v : Value) : Prop := v.WellPlaced ∧ v.Plain

theorem Value.IsData.ordinary {v : Value} (h : v.IsData) : v.Ordinary := by
  refine ⟨?_, h.plain⟩
  cases v with
  | returned i w => exact h.elim
  | fn i params body scope => exact h.elim
  | _ => trivial

theorem Value.WellPlaced.opened {v : Value} (h : v.WellPlaced) : v.opened.Ordinary := by
  cases v with
  | returned i w => exact h
  | _ => exact ⟨h, rfl⟩

namespace Eval

variable {limits : Limits}

/-! ## The invariant -/

/-- The returns in what a task works on are in place. -/
def Task.WellPlaced : Task → Prop
  | .expr _ e => ∃ may, e.wellPlaced may = true
  | .apply f args => f.Ordinary ∧ ∀ v ∈ args, v.Ordinary
  | .stmt _ s => ∃ may, s.wellPlaced may = true
  | .stmts _ ss last => (∃ may, Stmt.allWellPlaced may ss = true) ∧ last.WellPlaced
  | .program _ ss last => Stmt.allWellPlaced true ss = true ∧ last.Ordinary

/-- No `return` may end the task: there is none in it, or the task opens what it yields. -/
def Task.Silent : Task → Prop
  | .expr _ e => e.wellPlaced false = true
  | .apply _ _ => True
  | .stmt _ s => s.wellPlaced false = true
  | .stmts _ ss last => Stmt.allWellPlaced false ss = true ∧ last.Plain
  | .program _ _ _ => True

/-- With returns in place, a silent task yields a plain value. -/
def placeSpec : Spec where
  pre t m := m.store.All Value.Ordinary ∧ t.WellPlaced
  post t _ v m' := m'.store.All Value.Ordinary ∧ v.WellPlaced ∧ (t.Silent → v.Plain)

theorem post_of_ordinary {t : Task} {m m' : Machine} {v : Value}
    (hs : m'.store.All Value.Ordinary) (hv : v.Ordinary) : placeSpec.post t m v m' :=
  ⟨hs, hv.1, fun _ => hv.2⟩

/-- A part that something computes with: it is silent, so its value is an ordinary one. -/
theorem meets_place_operand {scope : ScopeId} {e : Expr} {m m₀ : Machine} {t : Task}
    {next : Value → Machine → Plan} (hs : m.store.All Value.Ordinary)
    (he : e.wellPlaced false = true)
    (hnext : ∀ v m', m'.store.All Value.Ordinary → v.Ordinary →
      (next v m').Meets limits placeSpec (placeSpec.post t m₀)) :
    (Plan.operand (.expr scope e) m next).Meets limits placeSpec (placeSpec.post t m₀) :=
  meets_operand ⟨hs, false, he⟩
    (fun _ _ _ hp hv => post_of_ordinary hp.1 (Value.isData_of_isError hv).ordinary)
    fun v m' _ hp _ => hnext v m' hp.1 ⟨hp.2.1, hp.2.2 he⟩

/-- The branch of a conditional, or a block: a `return` may stand in it if it may stand here. -/
theorem meets_place_block {scope : ScopeId} {b : Block} {m m₀ : Machine} {t : Task} {may : Bool}
    (hs : m.store.All Value.Ordinary) (hb : b.wellPlaced may = true)
    (hsilent : t.Silent → b.wellPlaced false = true) :
    (Plan.ask (.stmts scope b.stmts .absent) m .done).Meets limits placeSpec
      (placeSpec.post t m₀) := by
  refine ⟨⟨hs, ⟨may, (b.allWellPlaced_stmts may).trans hb⟩, trivial⟩, fun v m' _ hp => ?_⟩
  exact ⟨hp.1, hp.2.1, fun h => hp.2.2 ⟨(b.allWellPlaced_stmts false).trans (hsilent h), rfl⟩⟩

/-! ## One form of task at a time -/

theorem meets_place_expr {scope : ScopeId} {e : Expr} {m : Machine} {may : Bool}
    (hs : m.store.All Value.Ordinary) (he : e.wellPlaced may = true) :
    (Task.planExpr scope m e).Meets limits placeSpec (placeSpec.post (.expr scope e) m) := by
  cases e with
  | missing | int _ _ | bool _ _ => exact post_of_ordinary hs (Value.IsData.ordinary trivial)
  | fn t params body =>
    rw [Expr.wellPlaced] at he
    exact post_of_ordinary hs ⟨he, rfl⟩
  | ident x =>
    refine post_of_ordinary hs ?_
    cases hx : m.store.get? scope x.name with
    | none => exact Value.IsData.ordinary trivial
    | some v => exact hs.get? hx
  | unary t op e =>
    rw [Expr.wellPlaced] at he
    refine meets_place_operand hs he fun v m' hs' _ => ?_
    exact post_of_ordinary hs' (Value.isData_unary op v).ordinary
  | binary t op l r =>
    rw [Expr.wellPlaced, Bool.and_eq_true] at he
    refine meets_place_operand hs he.1 fun v m₁ hs₁ _ => ?_
    refine meets_place_operand hs₁ he.2 fun w m₂ hs₂ _ => ?_
    exact post_of_ordinary hs₂ (Value.isData_binary op v w).ordinary
  | ifThen t c body =>
    rw [Expr.wellPlaced, Bool.and_eq_true] at he
    refine meets_place_operand hs he.1 fun v m₁ hs₁ _ => ?_
    split
    · refine meets_place_block hs₁ he.2 fun h => ?_
      rw [Task.Silent, Expr.wellPlaced, Bool.and_eq_true] at h
      exact h.2
    · exact post_of_ordinary hs₁ (Value.IsData.ordinary trivial)
  | ifElse t c body other =>
    rw [Expr.wellPlaced, Bool.and_eq_true, Bool.and_eq_true] at he
    refine meets_place_operand hs he.1.1 fun v m₁ hs₁ _ => ?_
    split
    · refine meets_place_block hs₁ he.1.2 fun h => ?_
      rw [Task.Silent, Expr.wellPlaced, Bool.and_eq_true, Bool.and_eq_true] at h
      exact h.1.2
    · refine meets_place_block hs₁ he.2 fun h => ?_
      rw [Task.Silent, Expr.wellPlaced, Bool.and_eq_true, Bool.and_eq_true] at h
      exact h.2
  | call t f args =>
    rw [Expr.wellPlaced, Bool.and_eq_true] at he
    have hargs := Expr.wellPlaced_of_mem he.2
    refine meets_place_operand hs he.1 fun v m₁ hs₁ hv => ?_
    refine meets_operands (I := fun m => m.store.All Value.Ordinary)
      (P := fun _ v => v.Ordinary) (fun e he _ h => ⟨h, false, hargs e he⟩)
      (fun e he _ _ _ _ hp => ⟨hp.1, hp.2.1, hp.2.2 (hargs e he)⟩) hs₁
      (fun w m' h hw => post_of_ordinary h (Value.isData_of_isError hw).ordinary)
      fun vs m₂ hys h hvs => ?_
    have hvs' : ∀ w ∈ vs, w.Ordinary := by
      intro w hw
      obtain ⟨e, he⟩ := hys.exists_zip w hw
      exact hvs _ he
    exact ⟨⟨h, hv, hvs'⟩, fun w m' _ hp => post_of_ordinary hp.1 ⟨hp.2.1, hp.2.2 trivial⟩⟩

theorem meets_place_apply {f : Value} {args : List Value} {m : Machine}
    (hs : m.store.All Value.Ordinary) (hf : f.Ordinary) (hargs : ∀ v ∈ args, v.Ordinary) :
    (Task.planApply limits m args f).Meets limits placeSpec (placeSpec.post (.apply f args) m) := by
  have herror {fault : Fault} {m' : Machine} (h : m'.store.All Value.Ordinary) :
      placeSpec.post (.apply f args) m (.error fault) m' :=
    post_of_ordinary h (Value.IsData.ordinary trivial)
  cases f with
  | fn id params body scope =>
    simp only [Task.planApply]
    split
    · exact herror hs
    · refine meets_checking (fun why _ => herror hs) fun _ => ?_
      split
      · exact herror hs
      · have hcalled := Machine.called_all (m := m.checked) hs hargs scope params
        -- in a body a `return` may stand again, wherever the call stands
        refine ⟨⟨hcalled, ⟨true, (body.allWellPlaced_stmts true).trans hf.1⟩, trivial⟩, ?_⟩
        exact fun v m' _ hp => post_of_ordinary hp.1 hp.2.1.opened
  | _ => exact herror hs

theorem meets_place_stmt {scope : ScopeId} {s : Stmt} {m : Machine} {may : Bool}
    (hs : m.store.All Value.Ordinary) (hst : s.wellPlaced may = true) :
    (Task.planStmt scope m s).Meets limits placeSpec (placeSpec.post (.stmt scope s) m) := by
  cases s with
  | bind t x e =>
    rw [Stmt.wellPlaced] at hst
    refine meets_place_operand hs hst fun v m' hs' hv => ?_
    exact post_of_ordinary (hs'.set hv scope x.name) (Value.IsData.ordinary trivial)
  | ret t e =>
    rw [Stmt.wellPlaced, Bool.and_eq_true] at hst
    -- a `return` is not silent, so it owes no plain value
    refine meets_place_operand hs hst.2 fun v m' hs' hv => ⟨hs', hv, fun h => ?_⟩
    rw [Task.Silent, Stmt.wellPlaced] at h
    exact absurd h (by simp)
  | expr t e =>
    rw [Stmt.wellPlaced] at hst
    refine ⟨⟨hs, may, hst⟩, fun v m' _ hp => ⟨hp.1, hp.2.1, fun h => hp.2.2 ?_⟩⟩
    rw [Task.Silent, Stmt.wellPlaced] at h
    exact h
  | block b =>
    rw [Stmt.wellPlaced] at hst
    refine meets_place_block hs hst fun h => ?_
    rw [Task.Silent, Stmt.wellPlaced] at h
    exact h

theorem meets_place_stmts {scope : ScopeId} {ss : List Stmt} {last : Value} {m : Machine}
    {may : Bool} (hs : m.store.All Value.Ordinary) (hss : Stmt.allWellPlaced may ss = true)
    (hlast : last.WellPlaced) :
    (Task.planStmts limits scope m last ss).Meets limits placeSpec
      (placeSpec.post (.stmts scope ss last) m) := by
  cases ss with
  | nil =>
    simp only [Task.planStmts]
    split
    · exact ⟨hs, hlast, fun h => h.2⟩
    · exact post_of_ordinary hs (Value.IsData.ordinary trivial)
  | cons s ss =>
    rw [Stmt.allWellPlaced, Bool.and_eq_true] at hss
    have hsilent : (Task.stmts scope (s :: ss) last).Silent →
        s.wellPlaced false = true ∧ Stmt.allWellPlaced false ss = true := by
      intro h
      have h' := h.1
      rwa [Stmt.allWellPlaced, Bool.and_eq_true] at h'
    rw [Task.planStmts]
    refine meets_checking (fun why _ => post_of_ordinary hs (Value.IsData.ordinary trivial))
      fun _ => ?_
    refine ⟨⟨hs, may, hss.1⟩, fun v m' _ hp => ?_⟩
    have hv : (Task.stmts scope (s :: ss) last).Silent → v.Plain := fun h => hp.2.2 (hsilent h).1
    dsimp only
    split
    · exact ⟨hp.1, hp.2.1, hv⟩
    · refine ⟨⟨hp.1, ⟨may, hss.2⟩, hp.2.1⟩, fun w m₂ _ hp' => ⟨hp'.1, hp'.2.1, fun h => ?_⟩⟩
      exact hp'.2.2 ⟨(hsilent h).2, hv h⟩

theorem meets_place_program {scope : ScopeId} {ss : Program} {last : Value} {m : Machine}
    (hs : m.store.All Value.Ordinary) (hss : Stmt.allWellPlaced true ss = true)
    (hlast : last.Ordinary) :
    (Task.planProgram limits scope m last ss).Meets limits placeSpec
      (placeSpec.post (.program scope ss last) m) := by
  cases ss with
  | nil => exact post_of_ordinary hs hlast
  | cons s ss =>
    rw [Stmt.allWellPlaced, Bool.and_eq_true] at hss
    rw [Task.planProgram]
    refine meets_checking (fun why _ => post_of_ordinary hs (Value.IsData.ordinary trivial))
      fun _ => ?_
    refine ⟨⟨hs, true, hss.1⟩, fun v m' _ hp => ?_⟩
    cases v with
    | returned i w => exact post_of_ordinary hp.1 hp.2.1
    | error fault => exact post_of_ordinary hp.1 (Value.IsData.ordinary trivial)
    | _ =>
      refine ⟨⟨hp.1, hss.2, hp.2.1, rfl⟩, fun w m₂ _ hp' => ?_⟩
      exact post_of_ordinary hp'.1 ⟨hp'.2.1, hp'.2.2 trivial⟩

theorem meets_place {t : Task} {m : Machine} (hpre : placeSpec.pre t m) :
    (t.plan limits m).Meets limits placeSpec (placeSpec.post t m) := by
  cases t with
  | expr scope e => exact meets_place_expr hpre.1 hpre.2.choose_spec
  | apply f args => exact meets_place_apply hpre.1 hpre.2.1 hpre.2.2
  | stmt scope s => exact meets_place_stmt hpre.1 hpre.2.choose_spec
  | stmts scope ss last => exact meets_place_stmts hpre.1 hpre.2.1.choose_spec hpre.2.2
  | program scope ss last => exact meets_place_program hpre.1 hpre.2.1 hpre.2.2

/-! ## Nothing gets out -/

/-- In the parts whose values a task computes with, no `return` may stand. -/
theorem wellPlaced_of_uses {t : Task} {m : Machine} {e : Expr} {v : Value}
    (h : Uses limits t m e v) (ht : t.WellPlaced) : e.wellPlaced false = true := by
  cases h with
  | unary | bound =>
    obtain ⟨may, he⟩ := ht
    simpa only [Expr.wellPlaced, Stmt.wellPlaced] using he
  | left | conditionThen | callee =>
    obtain ⟨may, he⟩ := ht
    rw [Expr.wellPlaced, Bool.and_eq_true] at he
    exact he.1
  | right =>
    obtain ⟨may, he⟩ := ht
    rw [Expr.wellPlaced, Bool.and_eq_true] at he
    exact he.2
  | conditionElse =>
    obtain ⟨may, he⟩ := ht
    rw [Expr.wellPlaced, Bool.and_eq_true, Bool.and_eq_true] at he
    exact he.1.1
  | argument _ _ _ hx =>
    obtain ⟨may, he⟩ := ht
    rw [Expr.wellPlaced, Bool.and_eq_true] at he
    exact Expr.wellPlaced_of_mem he.2 _ (List.of_mem_zip hx).1
  | returned =>
    obtain ⟨may, he⟩ := ht
    rw [Stmt.wellPlaced, Bool.and_eq_true] at he
    exact he.2

theorem noEscape_of_wellPlaced {root : Task} {m₀ : Machine} (hroot : placeSpec.pre root m₀) :
    NoEscape limits root m₀ := by
  intro t m hr e v hu _
  have holds {t : Task} {m : Machine} (hr : Reaches limits root m₀ t m) :=
    Spec.holds hroot (fun t m _ hpre => meets_place hpre) hr
  obtain ⟨s, m₁, m₂, ha, hy⟩ := hu.asks
  exact ((holds (hr.step ha)).2 v m₂ hy).2.2 (wellPlaced_of_uses hu (holds hr).1.2)

end Eval

/-! ## Programs -/

open Eval

/-- A machine with one empty scope, the one numbered zero. -/
def Machine.initial : Machine := (Machine.newScope {}).2

/-- The run of a program in that scope. -/
def Program.start (p : Program) : Task := .program 0 p .absent

/-- **When returned values stay where they belong.** In the run of a program they are never ordinary values if
and only if no conditional that something computes with yields one; and this is so for every program whose returns
are all in statement position. -/
theorem contained_iff_noEscape (limits : Limits) (p : Program) :
    (Contained limits p.start .initial ↔ NoEscape limits p.start .initial) ∧
      (Stmt.allWellPlaced true p = true → Contained limits p.start .initial) := by
  have hcontained (h : NoEscape limits p.start .initial) : Contained limits p.start .initial :=
    contained_of_noEscape h ⟨Store.all_newScope, rfl⟩
  refine ⟨⟨fun h t m hr e v hu _ => h.used hr hu, hcontained⟩, fun hp => hcontained ?_⟩
  exact noEscape_of_wellPlaced ⟨Store.all_newScope, hp, Value.IsData.ordinary trivial⟩

/-- A function that returns from a branch of a conditional statement. -/
theorem contained_early_return :
    Contained {} (Program.ofSource
      (.ofString "let f = fn(x) \x7b if (x) \x7b return 1; \x7d 2 \x7d; f(true);")).1.start .initial :=
  (contained_iff_noEscape {} _).2 (by decide +kernel)

/-- A `return` of a conditional that returns: the text is in order, and the program yields a value that is still on
its way out, because it was marked twice and is opened once. -/
theorem not_contained_of_returned_conditional :
    (Program.ofSource (.ofString "return if (true) \x7b return 9 \x7d;")).2 = [] ∧
      ¬ Contained {} (Program.ofSource
        (.ofString "return if (true) \x7b return 9 \x7d;")).1.start .initial := by
  refine ⟨by decide +kernel, fun h => ?_⟩
  -- twelve units of fuel are enough for this run
  have hreturned : ((Program.ofSource (.ofString "return if (true) \x7b return 9 \x7d;")).1.start.run
      {} 12 .initial).any (fun r => r.1.isReturned) = true := by decide +kernel
  obtain ⟨⟨v, m'⟩, hrun, hv⟩ := (Option.any_eq_true _ _).mp hreturned
  have hplain : v.Plain := h.program .start ⟨12, hrun⟩
  exact absurd hplain (by simp [Value.Plain, hv])

end LetLang
