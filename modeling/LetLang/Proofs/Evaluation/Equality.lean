import LetLang.Proofs.Evaluation.ReturnPosition
import LetLang.Proofs.Evaluation.Agreement
import Mathlib.Logic.ExistsUnique

/-!
# Equality of values

Integers, truth values and `null` are equal when they are written alike. Functions are equal when they are the same
function, and the same function is one that was made once: by one evaluation of one function literal, after which it may
have been bound, passed, returned and kept in scopes any number of times. The operator does not see this. It compares
identities, so two facts about whole runs are needed.

Every function that comes up was made by a literal (`made_of_yields`): nothing but a literal makes functions, and
whatever else yields one has it from the store, from its parts or from a call. And no identity is given twice
(`Literal.eq_of_fresh`): the next unused one only ever grows, and of two evaluations of literals one is over before the
other starts, since nothing happens inside of them. Both are carried over from one evaluation to the next, as long as
these use the same scope and the machine that the one before has left.
-/

set_option autoImplicit false

namespace LetLang

open Eval

/-! ## Turns -/

/-- One of several evaluations in the first scope: under which limits, of what, and on which machine it starts. -/
structure Turn where
  limits : Limits
  node : Node
  start : Machine

/-- The evaluation comes to the start of a task on some machine. -/
def Turn.Reaches (r : Turn) (t : Task) (m : Machine) : Prop :=
  Eval.Reaches r.limits (r.node.task 0) r.start t m

/-- The turn that evaluates a node on a machine. -/
def Machine.turn (m : Machine) (limits : Limits) (node : Node) : Turn := ⟨limits, node, { m with depth := 0 }⟩

/-- The machine is what these evaluations, newest first, have left of one with an empty scope. In between the questions
may be counted anew and the trace forgotten. -/
inductive Machine.LeftBy : Machine → List Turn → Prop where
  | initial : LeftBy .initial []
  | renewed {m : Machine} {turns : List Turn} (asked : Nat) (trace : List Event) : m.LeftBy turns →
      LeftBy { m with asked, trace } turns
  | evaluated {m m' : Machine} {turns : List Turn} {limits : Limits} {node : Node} {v : Value} :
      m.LeftBy turns → m.Evaluates limits 0 node v m' → LeftBy m' (m.turn limits node :: turns)

/-- An evaluation of a function literal: the literal, its scope, and the machine on which it is evaluated. -/
structure Literal where
  scope : ScopeId
  token : Token
  params : List Ident
  body : Block
  machine : Machine

namespace Literal

def task (l : Literal) : Task := .expr l.scope (.fn l.token l.params l.body)

/-- It takes place in one of the turns. -/
def In (l : Literal) (turns : List Turn) : Prop := ∃ r ∈ turns, r.Reaches l.task l.machine

/-- It takes place in one of the turns and yields that value. -/
def Makes (l : Literal) (turns : List Turn) (v : Value) : Prop :=
  ∃ r ∈ turns, r.Reaches l.task l.machine ∧ ∃ m', Yields r.limits l.task l.machine v m'

end Literal

namespace Value

def isFunction : Value → Bool
  | .fn _ _ _ _ => true
  | _ => false

/-- Whether a value is one that a program can speak of: an integer, a truth value, `null` or a function. -/
def isOrdinary : Value → Bool
  | .int _ | .bool _ | .null | .fn _ _ _ _ => true
  | _ => false

/-- The value is an ordinary one, and some expression yields it in one of the turns. -/
def OperandIn (v : Value) (turns : List Turn) : Prop :=
  v.isOrdinary = true ∧ ∃ r ∈ turns, ∃ scope e m m',
    r.Reaches (.expr scope e) m ∧ Yields r.limits (.expr scope e) m v m'

/-- The same number, the same truth value, `null` twice, or two functions from one evaluation of a function literal. -/
inductive Alike (turns : List Turn) : Value → Value → Prop where
  | int (n : Int64) : Alike turns (.int n) (.int n)
  | bool (b : Bool) : Alike turns (.bool b) (.bool b)
  | null : Alike turns .null .null
  | function {l : Literal} {a b : Value} : l.Makes turns a → l.Makes turns b → Alike turns a b

/-- Every function in the value was made in the turns, also if the value is on its way out. -/
def MadeIn (turns : List Turn) : Value → Prop
  | .returned _ v => v.MadeIn turns
  | .fn i params body scope => ∃ l : Literal, l.Makes turns (.fn i params body scope)
  | _ => True

end Value

/-! ## What holds of every value

A property of values that speaks about functions only is handed on from the literals to all that a run yields. -/

namespace Eval

/-- A property that all but functions have, and that a value on its way out has from the value inside. -/
structure Inherited (P : Value → Prop) : Prop where
  data : ∀ {v : Value}, v.IsData → P v
  returned : ∀ {i : Nat} {v : Value}, P (.returned i v) ↔ P v

/-- The values that a task is given have the property. -/
def Task.Given (P : Value → Prop) : Task → Prop
  | .apply _ args => ∀ v ∈ args, P v
  | .stmts _ _ last | .program _ _ last => P last
  | _ => True

def inheritSpec (P : Value → Prop) : Spec where
  pre t m := m.store.All P ∧ t.Given P
  post _ _ v m' := m'.store.All P ∧ P v

section
variable {limits : Limits} {P : Value → Prop} {scope : ScopeId} {m m₀ : Machine} (hP : Inherited P)
include hP

theorem Inherited.opened {v : Value} (hv : P v) : P v.opened := by
  cases v with
  | returned i w => exact hP.returned.mp hv
  | _ => exact hv

omit hP in
theorem meets_inherit_operand {e : Expr} {t : Task} {next : Value → Machine → Plan} (hs : m.store.All P)
    (hnext : ∀ v m', m'.store.All P → P v →
      (next v m').Meets limits (inheritSpec P) ((inheritSpec P).post t m₀)) :
    (Plan.operand (.expr scope e) m next).Meets limits (inheritSpec P) ((inheritSpec P).post t m₀) :=
  meets_operand ⟨hs, trivial⟩ (fun _ _ _ hp _ => hp) fun v m' _ hp _ => hnext v m' hp.1 hp.2

theorem meets_inherit_block {b : Block} {t : Task} (hs : m.store.All P) :
    (Plan.ask (.stmts scope b.stmts .absent) m .done).Meets limits (inheritSpec P) ((inheritSpec P).post t m₀) :=
  ⟨⟨hs, hP.data trivial⟩, fun _ _ _ hp => hp⟩

theorem meets_inherit_expr (hs : m.store.All P) (e : Expr)
    (hfn : ∀ t params body, e = .fn t params body → P (.fn m.fresh params body scope)) :
    (Task.planExpr scope m e).Meets limits (inheritSpec P) ((inheritSpec P).post (.expr scope e) m) := by
  cases e with
  | missing | int _ _ | bool _ _ => exact ⟨hs, hP.data trivial⟩
  | fn t params body => exact ⟨hs, hfn t params body rfl⟩
  | ident x =>
    refine ⟨hs, ?_⟩
    cases hx : m.store.get? scope x.name with
    | none => exact hP.data trivial
    | some v => exact hs.get? hx
  | unary t op e =>
    exact meets_inherit_operand hs fun v m' hs' _ => ⟨hs', hP.data (Value.isData_unary op v)⟩
  | binary t op l r =>
    refine meets_inherit_operand hs fun v m₁ hs₁ _ => ?_
    exact meets_inherit_operand hs₁ fun w m₂ hs₂ _ => ⟨hs₂, hP.data (Value.isData_binary op v w)⟩
  | ifThen t c body =>
    refine meets_inherit_operand hs fun v m₁ hs₁ _ => ?_
    split
    · exact meets_inherit_block hP hs₁
    · exact ⟨hs₁, hP.data trivial⟩
  | ifElse t c body other =>
    refine meets_inherit_operand hs fun v m₁ hs₁ _ => ?_
    split
    · exact meets_inherit_block hP hs₁
    · exact meets_inherit_block hP hs₁
  | call t f args =>
    refine meets_inherit_operand hs fun v m₁ hs₁ _ => ?_
    refine meets_operands (I := fun m => m.store.All P) (P := fun _ v => P v) (fun _ _ _ h => ⟨h, trivial⟩)
      (fun _ _ _ _ _ _ hp => hp) hs₁ (fun w m' h hw => ⟨h, hP.data (Value.isData_of_isError hw)⟩)
      fun vs m₂ hys h hvs => ?_
    have hvs' : ∀ w ∈ vs, P w := by
      intro w hw
      obtain ⟨e, he⟩ := hys.exists_zip w hw
      exact hvs _ he
    exact ⟨⟨h, hvs'⟩, fun w m' _ hp => hp⟩

theorem meets_inherit_apply (hs : m.store.All P) (f : Value) {args : List Value} (hargs : ∀ v ∈ args, P v) :
    (Task.planApply limits m args f).Meets limits (inheritSpec P) ((inheritSpec P).post (.apply f args) m) := by
  cases f with
  | fn id params body outer =>
    simp only [Task.planApply]
    split
    · exact ⟨hs, hP.data trivial⟩
    · refine meets_checking (fun why _ => ⟨hs, hP.data trivial⟩) fun _ => ?_
      split
      · exact ⟨hs, hP.data trivial⟩
      · have hcalled := Machine.called_all (m := m.checked) hs hargs outer params
        exact ⟨⟨hcalled, hP.data trivial⟩, fun v m' _ hp => ⟨hp.1, hP.opened hp.2⟩⟩
  | _ => exact ⟨hs, hP.data trivial⟩

theorem meets_inherit_stmt (hs : m.store.All P) (s : Stmt) :
    (Task.planStmt scope m s).Meets limits (inheritSpec P) ((inheritSpec P).post (.stmt scope s) m) := by
  cases s with
  | bind t x e =>
    exact meets_inherit_operand hs fun v m' hs' hv => ⟨hs'.set hv scope x.name, hP.data trivial⟩
  | ret t e => exact meets_inherit_operand hs fun v m' hs' hv => ⟨hs', hP.returned.mpr hv⟩
  | expr t e => exact ⟨⟨hs, trivial⟩, fun v m' _ hp => hp⟩
  | block b => exact meets_inherit_block hP hs

theorem meets_inherit_stmts (hs : m.store.All P) {last : Value} (hlast : P last) (ss : List Stmt) :
    (Task.planStmts limits scope m last ss).Meets limits (inheritSpec P)
      ((inheritSpec P).post (.stmts scope ss last) m) := by
  cases ss with
  | nil =>
    simp only [Task.planStmts]
    split
    · exact ⟨hs, hlast⟩
    · exact ⟨hs, hP.data trivial⟩
  | cons s ss =>
    rw [Task.planStmts]
    refine meets_checking (fun why _ => ⟨hs, hP.data trivial⟩) fun _ => ⟨⟨hs, trivial⟩, fun v m' _ hp => ?_⟩
    dsimp only
    split
    · exact hp
    · exact ⟨hp, fun w m₂ _ hp' => hp'⟩

theorem meets_inherit_program (hs : m.store.All P) {last : Value} (hlast : P last) (ss : Program) :
    (Task.planProgram limits scope m last ss).Meets limits (inheritSpec P)
      ((inheritSpec P).post (.program scope ss last) m) := by
  cases ss with
  | nil => exact ⟨hs, hlast⟩
  | cons s ss =>
    rw [Task.planProgram]
    refine meets_checking (fun why _ => ⟨hs, hP.data trivial⟩) fun _ => ⟨⟨hs, trivial⟩, fun v m' _ hp => ?_⟩
    cases v with
    | returned i w => exact ⟨hp.1, hP.returned.mp hp.2⟩
    | error fault => exact hp
    | _ => exact ⟨hp, fun w m₂ _ hp' => hp'⟩

/-- **What holds of all functions when they are made holds of all values**, if it holds of those that are there at the
start. -/
theorem inherit_of_reaches {root t : Task} (hroot : (inheritSpec P).pre root m₀)
    (hfn : ∀ l : Literal, Reaches limits root m₀ l.task l.machine →
      P (.fn l.machine.fresh l.params l.body l.scope)) (hr : Reaches limits root m₀ t m) :
    (inheritSpec P).pre t m ∧ ∀ v m', Yields limits t m v m' → (inheritSpec P).post t m v m' := by
  refine Spec.holds hroot (fun t m hr hpre => ?_) hr
  cases t with
  | expr scope e =>
    refine meets_inherit_expr hP hpre.1 e fun t params body heq => ?_
    subst heq
    exact hfn ⟨scope, t, params, body, m⟩ hr
  | apply f args => exact meets_inherit_apply hP hpre.1 f hpre.2
  | stmt scope s => exact meets_inherit_stmt hP hpre.1 s
  | stmts scope ss last => exact meets_inherit_stmts hP hpre.1 hpre.2 ss
  | program scope ss last => exact meets_inherit_program hP hpre.1 hpre.2 ss

end

end Eval

/-! ## Every function was made by a literal -/

section
variable {turns : List Turn} {r : Turn} {l l₁ l₂ : Literal} {m m' : Machine} {v : Value}

theorem yields_literal_iff {limits : Limits} : Yields limits l.task l.machine v m' ↔
    v = .fn l.machine.fresh l.params l.body l.scope ∧ m' = l.machine.takeIdentity.2 := by
  rw [yields_iff]
  constructor
  · rintro ⟨⟩
    exact ⟨rfl, rfl⟩
  · rintro ⟨rfl, rfl⟩
    exact .done

theorem Literal.makes_iff : l.Makes turns v ↔
    l.In turns ∧ v = .fn l.machine.fresh l.params l.body l.scope := by
  simp only [Literal.Makes, Literal.In, yields_literal_iff]
  constructor
  · rintro ⟨r, hr, hreach, m', rfl, -⟩
    exact ⟨⟨r, hr, hreach⟩, rfl⟩
  · rintro ⟨⟨r, hr, hreach⟩, rfl⟩
    exact ⟨r, hr, hreach, _, rfl, rfl⟩

theorem Literal.In.cons (h : l.In turns) : l.In (r :: turns) := by
  obtain ⟨r', hr', hreach⟩ := h
  exact ⟨r', List.mem_cons_of_mem _ hr', hreach⟩

theorem Value.MadeIn.cons (h : v.MadeIn turns) : v.MadeIn (r :: turns) := by
  induction v with
  | returned i w ih => exact ih h
  | fn i params body scope =>
    obtain ⟨l, hl⟩ := h
    obtain ⟨hin, heq⟩ := Literal.makes_iff.mp hl
    exact ⟨l, Literal.makes_iff.mpr ⟨hin.cons, heq⟩⟩
  | _ => trivial

theorem inherited_madeIn : Inherited (Value.MadeIn turns) where
  data := by
    intro v hv
    cases v with
    | returned i w => exact hv.elim
    | fn i params body scope => exact hv.elim
    | _ => trivial
  returned := Iff.rfl

/-- One more turn: what it yields was made in it or before. -/
theorem made_of_yields {t : Task} {m₁ : Machine} (hs : r.start.store.All (Value.MadeIn turns)) (hr : r.Reaches t m)
    (hy : Yields r.limits t m v m₁) :
    m₁.store.All (Value.MadeIn (r :: turns)) ∧ v.MadeIn (r :: turns) := by
  -- the functions that are there at the start were made in the turns before
  have hroot : (inheritSpec (Value.MadeIn (r :: turns))).pre (r.node.task 0) r.start := by
    refine ⟨fun i f hf b hb => (hs i f hf b hb).cons, ?_⟩
    cases r.node with
    | program p | stmt s | expr e => trivial
  refine (inherit_of_reaches inherited_madeIn hroot (fun l hl => ?_) hr).2 v m₁ hy
  exact ⟨l, Literal.makes_iff.mpr ⟨⟨r, List.mem_cons_self, hl⟩, rfl⟩⟩

theorem Machine.LeftBy.all_madeIn (h : m.LeftBy turns) : m.store.All (Value.MadeIn turns) := by
  induction h with
  | initial => exact Store.all_newScope
  | renewed _ _ _ ih => exact ih
  | @evaluated m m' turns limits node v _ hy ih =>
    exact (made_of_yields (r := m.turn limits node) ih .start (Machine.evaluates_iff.mp hy)).1

/-- Nothing is yielded in any of the turns but what was made in them. -/
theorem Machine.LeftBy.madeIn_of_yields {t : Task} {m₁ m₂ : Machine} (h : m.LeftBy turns) (hmem : r ∈ turns)
    (hr : r.Reaches t m₁) (hy : Yields r.limits t m₁ v m₂) : v.MadeIn turns := by
  induction h with
  | initial => cases hmem
  | renewed _ _ _ ih => exact ih hmem
  | evaluated hm _ ih =>
    rcases List.mem_cons.mp hmem with rfl | hmem
    · exact (made_of_yields hm.all_madeIn hr hy).2
    · exact (ih hmem).cons

/-! ## No identity is given twice -/

theorem bindAll_fresh (scope : ScopeId) : ∀ (xs : List Ident) (vs : List Value) (m : Machine),
    (m.bindAll scope xs vs).fresh = m.fresh := by
  intro xs
  induction xs with
  | nil => exact fun _ _ => rfl
  | cons x xs ih =>
    intro vs m
    cases vs with
    | nil => rfl
    | cons v vs => exact ih vs (m.bind scope x.name v)

/-- The next unused identity only ever grows. -/
theorem fresh_drift : Drift fun m m' => m.fresh ≤ m'.fresh where
  refl m := Nat.le_refl m.fresh
  trans := Nat.le_trans
  change h := by
    cases h with
    | identity => exact Nat.le_succ _
    | checked | bound | failed => exact Nat.le_refl _
  called m outer params args := Nat.le_of_eq (bindAll_fresh _ params args ((m.enter args.length).enclose outer).2).symm
  leave m := Nat.le_refl m.fresh

/-- Nothing happens inside the evaluation of a literal. -/
theorem Literal.eq_of_reaches {limits : Limits} (h : Reaches limits l₁.task l₁.machine l₂.task l₂.machine) : l₁ = l₂ := by
  rcases h.eq_or_asks with ⟨htask, hmachine⟩ | ⟨t, m, ha, -⟩
  · cases l₁
    cases l₂
    cases htask
    cases hmachine
    rfl
  · cases ha

theorem Literal.fresh_lt {limits : Limits} (hy : Yields limits l.task l.machine v m) (hle : m.fresh ≤ m'.fresh) :
    l.machine.fresh < m'.fresh := by
  obtain ⟨-, rfl⟩ := yields_literal_iff.mp hy
  exact hle

/-- In one turn, evaluations of literals that take the same identity are one. -/
theorem Literal.eq_of_fresh (h₁ : r.Reaches l₁.task l₁.machine) (h₂ : r.Reaches l₂.task l₂.machine)
    (hfresh : l₁.machine.fresh = l₂.machine.fresh) : l₁ = l₂ := by
  rcases fresh_drift.apart h₁ h₂ with hin | hin | ⟨w, m', hy, hle⟩ | ⟨w, m', hy, hle⟩
  · exact eq_of_reaches hin
  · exact (eq_of_reaches hin).symm
  · exact absurd hfresh (Nat.ne_of_lt (fresh_lt hy hle))
  · exact absurd hfresh.symm (Nat.ne_of_lt (fresh_lt hy hle))

/-- No two evaluations of literals in these turns take the same identity. -/
def Distinct (turns : List Turn) : Prop :=
  ∀ l₁ l₂ : Literal, l₁.In turns → l₂.In turns → l₁.machine.fresh = l₂.machine.fresh → l₁ = l₂

theorem Machine.LeftBy.fresh_lt (h : m.LeftBy turns) : l.In turns → l.machine.fresh < m.fresh := by
  induction h with
  | initial =>
    rintro ⟨r, hr, -⟩
    exact absurd hr (by simp)
  | renewed _ _ _ ih => exact ih
  | @evaluated m m' turns limits node v _ hy ih =>
    have hy := Machine.evaluates_iff.mp hy
    rintro ⟨r, hr, hreach⟩
    rcases List.mem_cons.mp hr with rfl | hr
    · obtain ⟨w, m₂, hy', hle⟩ := fresh_drift.end_of_reaches hreach hy
      exact Literal.fresh_lt hy' hle
    · have hle : (m.turn limits node).start.fresh ≤ m'.fresh := fresh_drift.course.of_yields hy
      exact Nat.lt_of_lt_of_le (ih ⟨r, hr, hreach⟩) hle

/-- A turn takes none of the identities that were taken before it. -/
theorem distinct_turn (h : m.LeftBy turns) (hturns : Distinct turns) (limits : Limits) (node : Node) :
    Distinct (m.turn limits node :: turns) := by
  have hle {l : Literal} (hl : (m.turn limits node).Reaches l.task l.machine) : m.fresh ≤ l.machine.fresh := by
    have hstart : (m.turn limits node).start.fresh ≤ l.machine.fresh := fresh_drift.passage.of_reaches hl
    exact hstart
  rintro l₁ l₂ ⟨r₁, hr₁, h₁⟩ ⟨r₂, hr₂, h₂⟩ hfresh
  -- what the turn takes is not below the machine's next identity, and what was taken before is
  rcases List.mem_cons.mp hr₁ with rfl | hr₁
  · rcases List.mem_cons.mp hr₂ with rfl | hr₂
    · exact Literal.eq_of_fresh h₁ h₂ hfresh
    · have hlt := h.fresh_lt ⟨r₂, hr₂, h₂⟩
      exact absurd (hle h₁) (by omega)
  · rcases List.mem_cons.mp hr₂ with rfl | hr₂
    · have hlt := h.fresh_lt ⟨r₁, hr₁, h₁⟩
      exact absurd (hle h₂) (by omega)
    · exact hturns l₁ l₂ ⟨r₁, hr₁, h₁⟩ ⟨r₂, hr₂, h₂⟩ hfresh

theorem Machine.LeftBy.distinct (h : m.LeftBy turns) : Distinct turns := by
  induction h with
  | initial =>
    rintro l₁ l₂ ⟨r, hr, -⟩
    exact absurd hr (by simp)
  | renewed _ _ _ ih => exact ih
  | evaluated hm _ ih => exact distinct_turn hm ih _ _

/-! ## Equality -/

/-- Every function that comes up was made by exactly one evaluation of a literal. -/
theorem existsUnique_makes (hturns : Distinct turns) (hmade : v.MadeIn turns) (hfn : v.isFunction = true) :
    ∃! l : Literal, l.Makes turns v := by
  cases v with
  | fn i params body scope =>
    obtain ⟨l, hl⟩ := hmade
    refine ⟨l, hl, fun l' hl' => ?_⟩
    obtain ⟨hin, heq⟩ := Literal.makes_iff.mp hl
    obtain ⟨hin', heq'⟩ := Literal.makes_iff.mp hl'
    have hfresh := (Value.fn.inj (heq'.symm.trans heq)).1
    exact hturns l' l hin' hin hfresh
  | _ => cases hfn

/-- What the operator compares are identities, and these tell the literals. -/
theorem Value.same_iff_alike (hturns : Distinct turns) {a b : Value} (ha : a.isOrdinary = true)
    (hb : b.isOrdinary = true) (hmade : a.MadeIn turns) (hmade' : b.MadeIn turns) :
    a.same b = true ↔ Alike turns a b := by
  constructor
  · intro hsame
    cases a with
    | int n =>
      cases b with
      | int k => rw [eq_of_beq (a := n) (b := k) hsame]; exact .int k
      | _ => cases hsame
    | bool c =>
      cases b with
      | bool d => rw [eq_of_beq (a := c) (b := d) hsame]; exact .bool d
      | _ => cases hsame
    | null =>
      cases b with
      | null => exact .null
      | _ => cases hsame
    | fn i params body scope =>
      cases b with
      | fn j params' body' scope' =>
        obtain rfl : i = j := eq_of_beq hsame
        obtain ⟨l, hl⟩ := hmade
        obtain ⟨l', hl'⟩ := hmade'
        obtain ⟨hin, heq⟩ := Literal.makes_iff.mp hl
        obtain ⟨hin', heq'⟩ := Literal.makes_iff.mp hl'
        have hfresh := (Value.fn.inj heq).1.symm.trans (Value.fn.inj heq').1
        obtain rfl := hturns l l' hin hin' hfresh
        exact .function hl hl'
      | _ => cases hsame
    | absent | returned | error => cases ha
  · intro h
    cases h with
    | int n => exact beq_self_eq_true n
    | bool c => exact beq_self_eq_true c
    | null => rfl
    | function hl hl' =>
      rw [(Literal.makes_iff.mp hl).2, (Literal.makes_iff.mp hl').2]
      exact beq_self_eq_true _

end

namespace Value

theorem binary_eq (a b : Value) : a.binary "==" b = .bool (a.same b) := by
  cases a with
  | int n => cases b <;> rfl
  | _ => rfl

theorem binary_ne (a b : Value) : a.binary "!=" b = .bool (!a.same b) := by
  cases a with
  | int n => cases b <;> rfl
  | _ => rfl

theorem same_self {a : Value} (ha : a.isOrdinary = true) : a.same a = true := by
  cases a with
  | null => rfl
  | int _ | bool _ | fn _ _ _ _ => exact beq_self_eq_true _
  | absent | returned _ _ | error _ => cases ha

/-- Values that are the same cannot be told apart by a third. -/
theorem same_congr {a b : Value} (h : a.same b = true) (c : Value) : a.same c = b.same c := by
  fun_cases Value.same a b with
  | case1 | case4 => rfl
  | case2 i j | case3 i j =>
    obtain rfl : i = j := eq_of_beq h
    rfl
  | case5 i v j w | case6 i _ _ _ j _ _ _ =>
    obtain rfl : i = j := eq_of_beq h
    cases c <;> rfl
  | case7 => simp_all [same]

theorem equivalence_same {p : Value → Prop} (hp : ∀ v, p v → v.isOrdinary = true) :
    Equivalence fun a b : Subtype p => a.1.binary "==" b.1 = .bool true := by
  simp only [binary_eq, Value.bool.injEq]
  refine ⟨fun a => same_self (hp a.1 a.2), fun {a b} h => ?_, fun {a b c} h h' => ?_⟩
  · rw [← same_congr h]
    exact same_self (hp a.1 a.2)
  · rw [same_congr h]
    exact h'

theorem isError_of_isOrdinary {v : Value} (hv : v.isOrdinary = true) : v.isError = false := by
  cases v with
  | error _ => cases hv
  | _ => rfl

theorem OperandIn.madeIn {m : Machine} {turns : List Turn} (h : m.LeftBy turns) {limits : Limits} {node : Node}
    {v : Value} (hv : v.OperandIn (m.turn limits node :: turns)) : v.MadeIn (m.turn limits node :: turns) := by
  obtain ⟨-, r, hmem, scope, e, m₁, m₂, hr, hy⟩ := hv
  rcases List.mem_cons.mp hmem with rfl | hmem
  · exact (made_of_yields h.all_madeIn hr hy).2
  · exact (h.madeIn_of_yields hmem hr hy).cons

end Value

/-- An operator between two expressions is given the values of both, unless one of them is an error. -/
theorem yields_binary {limits : Limits} {scope : ScopeId} {t : Token} {op : String} {x y : Expr} {m m₁ m₂ : Machine}
    {a b : Value} (hx : Yields limits (.expr scope x) m a m₁) (ha : a.isError = false)
    (hy : Yields limits (.expr scope y) m₁ b m₂) (hb : b.isError = false) :
    Yields limits (.expr scope (.binary t op x y)) m (a.binary op b) m₂ := by
  rw [yields_iff] at hx hy ⊢
  refine .ask hx ?_
  rw [if_neg (by simp [ha])]
  refine .ask hy ?_
  rw [if_neg (by simp [hb])]
  exact .done

/-- **Equality is what the language says it is**, in any number of evaluations one after the other in a scope that was
empty at first, also while the last one is still going on. Every function that an expression yields was made by exactly
one evaluation of a function literal. Of any two values that expressions yield, however far apart, `==` gives a truth
value, which is true if they are the same number, the same truth value, both `null`, or functions from one evaluation of
one literal, and false otherwise; `!=` gives the other one. So `==` is an equivalence on these values. And this is what
a comparison yields wherever one is evaluated. -/
theorem Machine.LeftBy.equality {m : Machine} {before : List Turn} (h : m.LeftBy before) (limits : Limits)
    (node : Node) :
    let turns := m.turn limits node :: before
    (∀ v : Value, v.OperandIn turns → v.isFunction = true → ∃! l : Literal, l.Makes turns v) ∧
    (∀ a b : Value, a.OperandIn turns → b.OperandIn turns → ∃ c : Bool,
      (c = true ↔ a.Alike turns b) ∧ a.binary "==" b = .bool c ∧ a.binary "!=" b = .bool (!c)) ∧
    (Equivalence fun a b : { v : Value // v.OperandIn turns } => a.1.binary "==" b.1 = .bool true) ∧
    ∀ r ∈ turns, ∀ scope t op x y m₀ m₁ m₂ a b, r.Reaches (.expr scope (.binary t op x y)) m₀ →
      Yields r.limits (.expr scope x) m₀ a m₁ → a.isOrdinary = true →
      Yields r.limits (.expr scope y) m₁ b m₂ → b.isOrdinary = true →
      a.OperandIn turns ∧ b.OperandIn turns ∧
        Yields r.limits (.expr scope (.binary t op x y)) m₀ (a.binary op b) m₂ := by
  intro turns
  have hdistinct : Distinct turns := distinct_turn h h.distinct limits node
  refine ⟨fun v hv hfn => ?_, fun a b ha hb => ?_, Value.equivalence_same fun v hv => hv.1, ?_⟩
  · exact existsUnique_makes hdistinct (hv.madeIn h) hfn
  · refine ⟨a.same b, ?_, a.binary_eq b, a.binary_ne b⟩
    exact Value.same_iff_alike hdistinct ha.1 hb.1 (ha.madeIn h) (hb.madeIn h)
  · intro r hmem scope t op x y m₀ m₁ m₂ a b hr hx ha hy hb
    have ha' := Value.isError_of_isOrdinary ha
    have hleft : r.Reaches (.expr scope x) m₀ := hr.step .now
    have hright : r.Reaches (.expr scope y) m₁ := hr.step (operand_of_not_isError hx ha' .now)
    refine ⟨⟨ha, r, hmem, scope, x, m₀, m₁, hleft, hx⟩, ⟨hb, r, hmem, scope, y, m₁, m₂, hright, hy⟩, ?_⟩
    exact yields_binary hx ha' hy (Value.isError_of_isOrdinary hb)

/-- The value of an evaluation of an expression is an operand in all the turns from there on. -/
theorem Value.operandIn_of_evaluates {turns : List Turn} {m m' : Machine} {limits : Limits} {e : Expr} {v : Value}
    (h : m.Evaluates limits 0 (.expr e) v m') (hv : v.isOrdinary = true)
    (hmem : m.turn limits (.expr e) ∈ turns) : v.OperandIn turns :=
  ⟨hv, m.turn limits (.expr e), hmem, 0, e, _, m', .start, Machine.evaluates_iff.mp h⟩

/-- One literal, evaluated in two calls. -/
def Program.twoFunctions : Program := (Program.ofSource (.ofString
  "let make = fn() \x7b fn(x) \x7b x \x7d \x7d; let f = make(); let g = fn(x) \x7b return x \x7d(f); let h = make()")).1

def Expr.named (x : String) : Expr := .ident ⟨⟨.ident, x⟩, x⟩

/-- In three evaluations that follow, `f` and `g` are functions from one evaluation of it, and `h` is from another. -/
theorem Machine.LeftBy.equality_twoFunctions : ∃ (m : Machine) (before : List Turn) (a b c : Value), m.LeftBy before ∧
    let turns := m.turn {} (.expr (.named "h")) :: before
    a.OperandIn turns ∧ b.OperandIn turns ∧ c.OperandIn turns ∧ a.Alike turns b ∧ ¬ a.Alike turns c := by
  have hruns : (Machine.initial.eval {} 40 0 (.program .twoFunctions)).any (fun r =>
      (r.2.eval {} 40 0 (.expr (.named "f"))).any fun a => (a.2.eval {} 40 0 (.expr (.named "g"))).any fun b =>
        (b.2.eval {} 40 0 (.expr (.named "h"))).any fun c => (a.1.isOrdinary && b.1.isOrdinary && c.1.isOrdinary) &&
          (a.1.same b.1 && !a.1.same c.1)) = true := by decide +kernel
  simp only [Option.any_eq_true, Bool.and_eq_true, Bool.not_eq_true'] at hruns
  obtain ⟨⟨_, m₁⟩, h₁, ⟨a, m₂⟩, h₂, ⟨b, m₃⟩, h₃, ⟨c, m₄⟩, h₄, ⟨⟨ha, hb⟩, hc⟩, hab, hac⟩ := hruns
  have hf := Machine.evaluates_of_eval h₂
  have hg := Machine.evaluates_of_eval h₃
  have hh := Machine.evaluates_of_eval h₄
  have hleft := ((LeftBy.initial.evaluated (Machine.evaluates_of_eval h₁)).evaluated hf).evaluated hg
  refine ⟨m₃, _, a, b, c, hleft, ?_⟩
  intro turns
  have ha' : a.OperandIn turns := Value.operandIn_of_evaluates hf ha (by simp [turns])
  have hb' : b.OperandIn turns := Value.operandIn_of_evaluates hg hb (by simp [turns])
  have hc' : c.OperandIn turns := Value.operandIn_of_evaluates hh hc (by simp [turns])
  obtain ⟨-, hcompare, -, -⟩ := LeftBy.equality hleft {} (.expr (.named "h"))
  refine ⟨ha', hb', hc', ?_, ?_⟩
  · obtain ⟨d, hd, heq, -⟩ := hcompare a b ha' hb'
    rw [a.binary_eq, hab] at heq
    exact hd.mp (Value.bool.inj heq).symm
  · obtain ⟨d, hd, heq, -⟩ := hcompare a c ha' hc'
    rw [a.binary_eq, hac] at heq
    exact fun halike => Bool.false_ne_true ((Value.bool.inj heq).trans (hd.mpr halike))

end LetLang
