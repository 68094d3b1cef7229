import LetLang.Proofs.Evaluation.ReturnPosition
import LetLang.Proofs.Evaluation.Sequence

/-!
# Every expression has a value

A binding yields nothing, and so does a program without statements. Nothing is not a value of the language: it is not
`null`, it counts as true, and there is no text to show it by. So it must not get out of the statement that yields it. A
block that ends in a binding yields `null` instead, and a `return` without operand returns `null`; the rest follows,
because an expression only computes with what other expressions yield, with what names are bound to and with what calls
return.

`HasValues` says this of a run, whether it ends or not: nothing is ever bound, returned or computed with. It is carried
from one program to the next by the store (`Machine.Arises`), so it holds of every program that is evaluated after any
others in a scope that was empty at the start. Only the program as a whole may yield nothing, and
`yields_absent_iff` says when it does.
-/

set_option autoImplicit false

namespace LetLang

/-- There is a value, and if it is on its way out, there is one inside. -/
def Value.Solid : Value → Prop
  | .absent => False
  | .returned _ v => v.Solid
  | _ => True

def Stmt.isBind : Stmt → Bool
  | .bind _ _ _ => true
  | _ => false

namespace Value

theorem Solid.ne_absent {v : Value} (h : v.Solid) : v ≠ .absent := by
  rintro rfl
  exact h

theorem Solid.opened {v : Value} (h : v.Solid) : v.opened.Solid := by
  cases v with
  | returned i w => exact h
  | _ => exact h

theorem solid_of_isError {v : Value} (h : v.isError = true) : v.Solid := by
  cases v with
  | error fault => trivial
  | _ => exact absurd h (by simp [Value.isError])

theorem solid_unary (op : String) (v : Value) : (v.unary op).Solid := by
  unfold Value.unary
  split <;> trivial

theorem solid_arith (op : String) (a b : Int64) : (Value.arith op a b).Solid := by
  unfold Value.arith
  repeat' split
  all_goals trivial

theorem solid_binary (op : String) (l r : Value) : (l.binary op r).Solid := by
  unfold Value.binary
  split
  · exact solid_arith op _ _
  · repeat' split
    all_goals trivial

end Value

namespace Eval

variable {limits : Limits}

/-- In the run of `root` from `m₀` nothing is never taken for a value. -/
structure HasValues (limits : Limits) (root : Task) (m₀ : Machine) : Prop where
  /-- No name is bound to nothing, when a task starts ... -/
  store : ∀ {t m}, Reaches limits root m₀ t m → m.store.All Value.Solid
  /-- ... and when it ends. -/
  storeAfter : ∀ {t m v m'}, Reaches limits root m₀ t m → Yields limits t m v m' → m'.store.All Value.Solid
  /-- Every expression yields a value ... -/
  expr : ∀ {s e m v m'}, Reaches limits root m₀ (.expr s e) m → Yields limits (.expr s e) m v m' → v.Solid
  /-- ... and so does every block, from any of its statements on ... -/
  block : ∀ {s ss last m v m'}, Reaches limits root m₀ (.stmts s ss last) m →
    Yields limits (.stmts s ss last) m v m' → v.Solid
  /-- ... and every call. -/
  call : ∀ {f args m v m'}, Reaches limits root m₀ (.apply f args) m → Yields limits (.apply f args) m v m' → v.Solid
  /-- Nothing is never on its way out, whatever the task. -/
  returned : ∀ {t m i w m'}, Reaches limits root m₀ t m → Yields limits t m (.returned i w) m' → w.Solid

/-! ## The invariant -/

/-- What a task is given is there. Before the rest of a block or a program there may have been nothing. -/
def Task.Provided : Task → Prop
  | .apply f args => f.Solid ∧ ∀ v ∈ args, v.Solid
  | .stmts _ _ last | .program _ _ last => last = .absent ∨ last.Solid
  | _ => True

/-- What a task yields is there, save that a binding yields nothing, unless it fails, and a program may. -/
def Task.Delivers (v : Value) : Task → Prop
  | .stmt _ s => if s.isBind then v = .absent ∨ v.isError = true else v.Solid
  | .program _ _ _ => v = .absent ∨ v.Solid
  | _ => v.Solid

def valueSpec : Spec where
  pre t m := m.store.All Value.Solid ∧ t.Provided
  post t _ v m' := m'.store.All Value.Solid ∧ t.Delivers v

theorem Task.Delivers.absent_or_solid {t : Task} {v : Value} (h : t.Delivers v) : v = .absent ∨ v.Solid := by
  cases t with
  | stmt scope s =>
    simp only [Task.Delivers] at h
    split at h
    · exact h.imp_right Value.solid_of_isError
    · exact .inr h
  | program scope ss last => exact h
  | _ => exact .inr h

theorem delivers_of_isError (t : Task) {v : Value} (hv : v.isError = true) : t.Delivers v := by
  have hsolid := Value.solid_of_isError hv
  cases t with
  | stmt scope s =>
    simp only [Task.Delivers]
    split
    · exact .inr hv
    · exact hsolid
  | program scope ss last => exact .inr hsolid
  | _ => exact hsolid

/-! ## One form of task at a time -/

section
variable {scope : ScopeId} {m m₀ : Machine}

/-- An operand is there, so all that is left to show is what the task does with it. -/
theorem meets_value_operand {e : Expr} {t : Task} {next : Value → Machine → Plan} (hs : m.store.All Value.Solid)
    (hnext : ∀ v m', m'.store.All Value.Solid → v.Solid →
      (next v m').Meets limits valueSpec (valueSpec.post t m₀)) :
    (Plan.operand (.expr scope e) m next).Meets limits valueSpec (valueSpec.post t m₀) :=
  meets_operand ⟨hs, trivial⟩ (fun _ _ _ hp hv => ⟨hp.1, delivers_of_isError t hv⟩)
    fun v m' _ hp _ => hnext v m' hp.1 hp.2

theorem meets_value_block {b : Block} {t : Task} (hs : m.store.All Value.Solid)
    (ht : ∀ v : Value, v.Solid → t.Delivers v) :
    (Plan.ask (.stmts scope b.stmts .absent) m .done).Meets limits valueSpec (valueSpec.post t m₀) :=
  ⟨⟨hs, .inl rfl⟩, fun v _ _ hp => ⟨hp.1, ht v hp.2⟩⟩

theorem meets_value_expr (hs : m.store.All Value.Solid) (e : Expr) :
    (Task.planExpr scope m e).Meets limits valueSpec (valueSpec.post (.expr scope e) m) := by
  cases e with
  | missing | int _ _ | bool _ _ | fn _ _ _ => exact ⟨hs, trivial⟩
  | ident x =>
    refine ⟨hs, ?_⟩
    cases hx : m.store.get? scope x.name with
    | none => trivial
    | some v => exact hs.get? hx
  | unary t op e => exact meets_value_operand hs fun v m' hs' _ => ⟨hs', Value.solid_unary op v⟩
  | binary t op l r =>
    refine meets_value_operand hs fun v m₁ hs₁ _ => ?_
    exact meets_value_operand hs₁ fun w m₂ hs₂ _ => ⟨hs₂, Value.solid_binary op v w⟩
  | ifThen t c body =>
    refine meets_value_operand hs fun v m₁ hs₁ _ => ?_
    split
    · exact meets_value_block hs₁ fun _ h => h
    · exact ⟨hs₁, trivial⟩
  | ifElse t c body other =>
    refine meets_value_operand hs fun v m₁ hs₁ _ => ?_
    split
    · exact meets_value_block hs₁ fun _ h => h
    · exact meets_value_block hs₁ fun _ h => h
  | call t f args =>
    refine meets_value_operand hs fun v m₁ hs₁ hv => ?_
    refine meets_operands (I := fun m => m.store.All Value.Solid) (P := fun _ v => v.Solid)
      (fun _ _ _ h => ⟨h, trivial⟩) (fun _ _ _ _ _ _ hp => hp) hs₁ (fun w m' h hw => ⟨h, Value.solid_of_isError hw⟩)
      fun vs m₂ hys h hvs => ?_
    have hvs' : ∀ w ∈ vs, w.Solid := by
      intro w hw
      obtain ⟨e, he⟩ := hys.exists_zip w hw
      exact hvs _ he
    exact ⟨⟨h, hv, hvs'⟩, fun w m' _ hp => hp⟩

theorem meets_value_apply (hs : m.store.All Value.Solid) (f : Value) {args : List Value} (hargs : ∀ v ∈ args, v.Solid) :
    (Task.planApply limits m args f).Meets limits valueSpec (valueSpec.post (.apply f args) m) := by
  cases f with
  | fn id params body outer =>
    simp only [Task.planApply]
    split
    · exact ⟨hs, trivial⟩
    · refine meets_checking (fun why _ => ⟨hs, trivial⟩) fun _ => ?_
      split
      · exact ⟨hs, trivial⟩
      · have hcalled := Machine.called_all (m := m.checked) hs hargs outer params
        exact ⟨⟨hcalled, .inl rfl⟩, fun v m' _ hp => ⟨hp.1, hp.2.opened⟩⟩
  | _ => exact ⟨hs, trivial⟩

theorem meets_value_stmt (hs : m.store.All Value.Solid) (s : Stmt) :
    (Task.planStmt scope m s).Meets limits valueSpec (valueSpec.post (.stmt scope s) m) := by
  cases s with
  | bind t x e => exact meets_value_operand hs fun v m' hs' hv => ⟨hs'.set hv scope x.name, .inl rfl⟩
  | ret t e => exact meets_value_operand hs fun v m' hs' hv => ⟨hs', hv⟩
  | expr t e => exact ⟨⟨hs, trivial⟩, fun v m' _ hp => hp⟩
  | block b => exact meets_value_block hs fun _ h => h

theorem meets_value_stmts (hs : m.store.All Value.Solid) {last : Value} (hlast : last = .absent ∨ last.Solid)
    (ss : List Stmt) : (Task.planStmts limits scope m last ss).Meets limits valueSpec
      (valueSpec.post (.stmts scope ss last) m) := by
  cases ss with
  | nil =>
    simp only [Task.planStmts]
    -- this is where nothing becomes `null`
    rcases hlast with rfl | hlast
    · exact ⟨hs, trivial⟩
    · split
      · exact ⟨hs, hlast⟩
      · exact ⟨hs, trivial⟩
  | cons s ss =>
    rw [Task.planStmts]
    refine meets_checking (fun why _ => ⟨hs, trivial⟩) fun _ => ?_
    refine ⟨⟨hs, trivial⟩, fun v m' _ hp => ?_⟩
    have hv := hp.2.absent_or_solid
    dsimp only
    split
    · -- what ends the block is a value: nothing does not
      next hfinal => exact ⟨hp.1, hv.resolve_left (by rintro rfl; exact absurd hfinal (by decide))⟩
    · exact ⟨⟨hp.1, hv⟩, fun w m₂ _ hp' => hp'⟩

theorem meets_value_program (hs : m.store.All Value.Solid) {last : Value} (hlast : last = .absent ∨ last.Solid)
    (ss : Program) : (Task.planProgram limits scope m last ss).Meets limits valueSpec
      (valueSpec.post (.program scope ss last) m) := by
  cases ss with
  | nil => exact ⟨hs, hlast⟩
  | cons s ss =>
    rw [Task.planProgram]
    refine meets_checking (fun why _ => ⟨hs, .inr trivial⟩) fun _ => ?_
    refine ⟨⟨hs, trivial⟩, fun v m' _ hp => ?_⟩
    have hv := hp.2.absent_or_solid
    cases v with
    | returned i w => exact ⟨hp.1, .inr (hv.resolve_left (by simp))⟩
    | error fault => exact ⟨hp.1, .inr trivial⟩
    | _ => exact ⟨⟨hp.1, hv⟩, fun w m₂ _ hp' => hp'⟩

end

theorem meets_value {t : Task} {m : Machine} (hpre : valueSpec.pre t m) :
    (t.plan limits m).Meets limits valueSpec (valueSpec.post t m) := by
  cases t with
  | expr scope e => exact meets_value_expr hpre.1 e
  | apply f args => exact meets_value_apply hpre.1 f hpre.2.2
  | stmt scope s => exact meets_value_stmt hpre.1 s
  | stmts scope ss last => exact meets_value_stmts hpre.1 hpre.2 ss
  | program scope ss last => exact meets_value_program hpre.1 hpre.2 ss

theorem delivers_of_yields {t : Task} {m m' : Machine} {v : Value} (hy : Yields limits t m v m')
    (hpre : valueSpec.pre t m) : valueSpec.post t m v m' :=
  (Spec.holds hpre (fun _ _ _ h => meets_value h) .start).2 v m' hy

/-- **Nothing stays where it is yielded**, if nothing is bound to a name at the start. -/
theorem hasValues_of_pre {root : Task} {m₀ : Machine} (hroot : valueSpec.pre root m₀) :
    HasValues limits root m₀ := by
  have holds {t : Task} {m : Machine} (hr : Reaches limits root m₀ t m) :=
    Spec.holds hroot (fun t m _ hpre => meets_value hpre) hr
  refine ⟨fun hr => (holds hr).1.1, fun hr hy => ((holds hr).2 _ _ hy).1, fun hr hy => ((holds hr).2 _ _ hy).2,
    fun hr hy => ((holds hr).2 _ _ hy).2, fun hr hy => ((holds hr).2 _ _ hy).2, fun hr hy => ?_⟩
  exact ((holds hr).2 _ _ hy).2.absent_or_solid.resolve_left (by simp)

/-! ## Programs that yield nothing -/

/-- All statements of the program are run: it is not told to stop before any of them, and none yields an error or a
returned value. -/
inductive RunsThrough (limits : Limits) (scope : ScopeId) : Program → Machine → Prop where
  | nil {m : Machine} : RunsThrough limits scope [] m
  | cons {s : Stmt} {ss : Program} {m m₁ : Machine} {v : Value} : limits.patience.answer m.asked = none →
      Yields limits (.stmt scope s) m.checked v m₁ → v.isFinal = false → RunsThrough limits scope ss m₁ →
      RunsThrough limits scope (s :: ss) m

/-- A statement after which the program goes on yields nothing if and only if it is a binding. -/
theorem eq_absent_iff_isBind {scope : ScopeId} {s : Stmt} {m m' : Machine} {v : Value} (hs : m.store.All Value.Solid)
    (hy : Yields limits (.stmt scope s) m v m') (hv : v.isFinal = false) : v = .absent ↔ s.isBind = true := by
  have hdelivers : (Task.stmt scope s).Delivers v := (delivers_of_yields hy ⟨hs, trivial⟩).2
  simp only [Task.Delivers] at hdelivers
  split at hdelivers
  · next hbind =>
    refine iff_of_true (hdelivers.resolve_right fun herror => ?_) hbind
    rw [Value.isFinal, herror, Bool.or_true] at hv
    exact absurd hv (by simp)
  · next hbind => exact iff_of_false hdelivers.ne_absent hbind

/-- **When a program yields nothing**: by induction over its statements, where what each of them yields is what was
there last when the next one starts. -/
theorem yields_absent_iff {scope : ScopeId} {p : Program} : ∀ {last : Value} {m : Machine}, m.store.All Value.Solid →
    ((∃ m', Yields limits (.program scope p last) m .absent m') ↔ RunsThrough limits scope p m ∧
      (p = [] ∧ last = .absent ∨ p.getLast?.any Stmt.isBind = true)) := by
  induction p with
  | nil =>
    intro last m _
    constructor
    · rintro ⟨m', hy⟩
      exact ⟨.nil, .inl ⟨rfl, (yields_nil_iff.mp hy).1.symm⟩⟩
    · rintro ⟨-, ⟨-, rfl⟩ | h⟩
      · exact ⟨m, yields_nil_iff.mpr ⟨rfl, rfl⟩⟩
      · cases h
  | cons s ss ih =>
    intro last m hs
    -- the last statement of the program is `s`, or it is the last one of `ss`
    have hlast (v : Value) (hv : v = .absent ↔ s.isBind = true) :
        (ss = [] ∧ v = .absent ∨ ss.getLast?.any Stmt.isBind = true) ↔
          (s :: ss).getLast?.any Stmt.isBind = true := by
      cases ss with
      | nil => simp [hv]
      | cons s' ss => simp
    constructor
    · rintro ⟨m', hy⟩
      rcases yields_program_cons.mp hy with ⟨why, -, heq, -⟩ | ⟨hanswer, v, m₁, hstmt, hcases⟩
      · cases heq
      · obtain ⟨hs₁, hdelivers⟩ := delivers_of_yields hstmt ⟨hs, trivial⟩
        rcases hcases with ⟨hfinal, habsent, -⟩ | ⟨hv, hrest⟩
        · -- what ends the program is a value, and so is what is inside
          have hsolid := hdelivers.absent_or_solid.resolve_left (by rintro rfl; exact absurd hfinal (by decide))
          exact absurd habsent.symm hsolid.opened.ne_absent
        · obtain ⟨hthrough, hend⟩ := (ih hs₁).mp ⟨m', hrest⟩
          have hbind := eq_absent_iff_isBind (m := m.checked) hs hstmt hv
          exact ⟨.cons hanswer hstmt hv hthrough, .inr ((hlast v hbind).mp hend)⟩
    · rintro ⟨hthrough, hend⟩
      cases hthrough with
      | @cons _ _ _ m₁ v hanswer hstmt hv hthrough =>
        have hs₁ := (delivers_of_yields hstmt ⟨hs, trivial⟩).1
        have hbind := eq_absent_iff_isBind (m := m.checked) hs hstmt hv
        have hend' := (hlast v hbind).mpr (hend.resolve_left (by simp))
        obtain ⟨m', hrest⟩ := (ih hs₁).mpr ⟨hthrough, hend'⟩
        exact ⟨m', yields_program_cons.mpr (.inr ⟨hanswer, v, m₁, hstmt, .inr ⟨hv, hrest⟩⟩)⟩

end Eval

/-! ## One program after the other -/

open Eval

/-- The machine after programs that were evaluated in its first scope one after the other, each under limits of its own.
In between the questions may be counted anew and the trace forgotten. -/
inductive Machine.Arises : Machine → Prop where
  | initial : Arises .initial
  | renewed {m : Machine} (asked : Nat) (trace : List Event) : Arises m → Arises { m with asked, trace }
  | evaluated {m m' : Machine} {limits : Limits} {p : Program} {v : Value} : Arises m →
      m.Evaluates limits 0 (.program p) v m' → Arises m'

theorem Machine.Arises.solid {m : Machine} (h : m.Arises) : m.store.All Value.Solid := by
  induction h with
  | initial => exact Store.all_newScope
  | renewed _ _ _ ih => exact ih
  | evaluated _ hy ih => exact (delivers_of_yields (Machine.evaluates_iff.mp hy) ⟨ih, .inl rfl⟩).1

/-- **Every expression has a value.** Whatever programs were evaluated before, under whatever limits, in the run of the
next one no expression, block or call yields nothing, no name is bound to it, and no `return` returns it. The program
itself yields nothing if and only if it is empty, or all its statements are run and the last one is a binding. -/
theorem Machine.Arises.hasValues {m : Machine} (h : m.Arises) (limits : Limits) (p : Program) :
    HasValues limits p.start { m with depth := 0 } ∧
      ((∃ m', m.Evaluates limits 0 (.program p) .absent m') ↔
        p = [] ∨ RunsThrough limits 0 p { m with depth := 0 } ∧ p.getLast?.any Stmt.isBind = true) := by
  refine ⟨hasValues_of_pre ⟨h.solid, .inl rfl⟩, ?_⟩
  simp only [Machine.evaluates_iff]
  rw [Node.task, yields_absent_iff (m := { m with depth := 0 }) h.solid]
  constructor
  · rintro ⟨hthrough, ⟨rfl, -⟩ | hend⟩
    · exact .inl rfl
    · exact .inr ⟨hthrough, hend⟩
  · rintro (rfl | ⟨hthrough, hend⟩)
    · exact ⟨.nil, .inl ⟨rfl, rfl⟩⟩
    · exact ⟨hthrough, .inr hend⟩

/-- Functions whose bodies end in a binding and in a bare `return`, and a call. -/
def Program.quietFunctions : Program :=
  (Program.ofSource (.ofString "let f = fn(x) \x7b let y = x; \x7d; let g = fn() \x7b return; \x7d; f(1);")).1

/-- Bindings of what these functions yield, and of a conditional whose branch ends in a binding. -/
def Program.boundCalls : Program :=
  (Program.ofSource (.ofString "let a = f(2); let b = if (a == g()) \x7b let c = 3; \x7d;")).1

/-- The bindings, evaluated after the functions, yield nothing: all of them are run, and the last one is a binding. -/
theorem Machine.Arises.hasValues_boundCalls : ∃ m : Machine, m.Arises ∧
    HasValues {} Program.boundCalls.start { m with depth := 0 } ∧
    (∃ m', m.Evaluates {} 0 (.program Program.boundCalls) .absent m') ∧
    RunsThrough {} 0 Program.boundCalls { m with depth := 0 } := by
  have hends : ((Machine.initial.eval {} 40 0 (.program Program.quietFunctions)).bind fun x =>
      x.2.eval {} 40 0 (.program Program.boundCalls)).any (fun x => !x.1.isPresent) = true := by decide +kernel
  obtain ⟨⟨v, m'⟩, hboth, hv⟩ := (Option.any_eq_true _ _).mp hends
  obtain ⟨⟨u, m⟩, hfirst, hsecond⟩ := Option.bind_eq_some_iff.mp hboth
  obtain rfl : v = .absent := by
    cases v with
    | absent => rfl
    | _ => cases hv
  have hm : m.Arises := .evaluated .initial (Machine.evaluates_of_eval hfirst)
  have habsent : ∃ m', m.Evaluates {} 0 (.program Program.boundCalls) .absent m' :=
    ⟨m', Machine.evaluates_of_eval hsecond⟩
  obtain ⟨hvalues, hiff⟩ := Machine.Arises.hasValues hm {} Program.boundCalls
  refine ⟨m, hm, hvalues, habsent, ?_⟩
  rcases hiff.mp habsent with hnil | ⟨hthrough, -⟩
  · have hsome : Program.boundCalls.isEmpty = false := by decide +kernel
    rw [hnil] at hsome
    cases hsome
  · exact hthrough

end LetLang
