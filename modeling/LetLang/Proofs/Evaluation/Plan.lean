import LetLang.Evaluation

/-!
# Evaluation, one task at a time

A run is taken apart into *tasks*: the value of an expression, of a statement, of a list of statements, a
call. What a task does between the tasks it hands out is finite and needs no fuel, and a **plan** writes it
down: either the task is done, with a value and a machine, or it asks for another task on some machine and
goes on with the answer. `Task.plan` says all that one task can do, once, and every statement about runs is
derived from it.

That the fuelled functions carry out these plans is one equation (`Task.run_succ`). What evaluation yields is then
what the plans, read as rules, end with (`yields_iff`), and more fuel than enough changes nothing
(`run_of_resolves`).
-/

set_option autoImplicit false

namespace LetLang

/-- Whether a value is the operand of a `return` on its way out. -/
def Value.isReturned : Value → Bool
  | .returned _ _ => true
  | _ => false

/-- What a call makes of the value of its body. -/
def Value.opened : Value → Value
  | .returned _ v => v
  | v => v

namespace Machine

/-- The machine after one more question whether to go on. -/
def checked (m : Machine) : Machine :=
  { m with asked := m.asked + 1, trace := .checked :: m.trace }

/-- The scope of a call, and the machine on which the body starts. -/
def called (m : Machine) (outer : ScopeId) (params : List Ident) (args : List Value) :
    ScopeId × Machine :=
  let (scope, m) := (m.enter args.length).enclose outer
  (scope, m.bindAll scope params args)

end Machine

namespace Eval

/-! ## Tasks and plans -/

/-- What a run can be asked for: the functions of the evaluator with their arguments. -/
inductive Task where
  | expr (scope : ScopeId) (e : Expr)
  | apply (f : Value) (args : List Value)
  | stmt (scope : ScopeId) (s : Stmt)
  | stmts (scope : ScopeId) (ss : List Stmt) (last : Value)
  | program (scope : ScopeId) (ss : Program) (last : Value)

/-- What a task does: it is done, or asks for another task and goes on with the answer. -/
inductive Plan where
  | done (v : Value) (m : Machine)
  | ask (t : Task) (m : Machine) (next : Value → Machine → Plan)

namespace Plan

/-- Asks for a value to compute with. An error is handed on instead. -/
def operand (t : Task) (m : Machine) (next : Value → Machine → Plan) : Plan :=
  .ask t m fun v m => if v.isError then .done v m else next v m

/-- Asks for several values to compute with, the first one first. -/
def operands (scope : ScopeId) : List Expr → Machine → (List Value → Machine → Plan) → Plan
  | [], m, next => next [] m
  | e :: es, m, next =>
    operand (.expr scope e) m fun v m => operands scope es m fun vs m => next (v :: vs) m

/-- Asks whether to go on, and stops with an error if not. -/
def checking (limits : Limits) (m : Machine) (next : Machine → Plan) : Plan :=
  match limits.patience.answer m.asked with
  | some why => .done (.error (.cancelled why)) m.checked
  | none => next m.checked

end Plan

namespace Task

open Plan

/-- What the value of an expression takes. -/
def planExpr (scope : ScopeId) (m : Machine) : Expr → Plan
  | .missing => .done .null m
  | .ident x => .done ((m.store.get? scope x.name).getD (.error (.notFound x.name))) m
  | .int _ n => .done (.int n) m
  | .bool _ b => .done (.bool b) m
  | .unary _ op e => operand (.expr scope e) m fun v m => .done (v.unary op) m
  | .binary _ op left right =>
    operand (.expr scope left) m fun l m =>
      operand (.expr scope right) m fun r m => .done (l.binary op r) m
  | .ifThen _ condition consequence =>
    operand (.expr scope condition) m fun c m =>
      if c.isTruthy then .ask (.stmts scope consequence.stmts .absent) m .done else .done .null m
  | .ifElse _ condition consequence alternative =>
    operand (.expr scope condition) m fun c m =>
      if c.isTruthy then .ask (.stmts scope consequence.stmts .absent) m .done
      else .ask (.stmts scope alternative.stmts .absent) m .done
  | .fn _ params body => .done (.fn m.takeIdentity.1 params body scope) m.takeIdentity.2
  | .call _ callee args =>
    operand (.expr scope callee) m fun f m =>
      operands scope args m fun vs m => .ask (.apply f vs) m .done

/-- What a call takes. -/
def planApply (limits : Limits) (m : Machine) (args : List Value) : Value → Plan
  | .fn _ params body scope =>
    if args.length ≠ params.length then
      .done (.error (.argumentCount params.length args.length)) m
    else checking limits m fun m =>
      if limits.forbidsCall m.depth then .done (.error (.tooDeep limits.maxDepth)) m
      else
        .ask (.stmts (m.called scope params args).1 body.stmts .absent)
          (m.called scope params args).2 fun v m => .done v.opened m.leave
  | f => .done (.error (.notAFunction f.kind)) m

/-- What a statement takes. -/
def planStmt (scope : ScopeId) (m : Machine) : Stmt → Plan
  | .bind _ x e => operand (.expr scope e) m fun v m => .done .absent (m.bind scope x.name v)
  | .ret _ e =>
    operand (.expr scope e) m fun v m => .done (.returned m.takeIdentity.1 v) m.takeIdentity.2
  | .expr _ e => .ask (.expr scope e) m .done
  | .block b => .ask (.stmts scope b.stmts .absent) m .done

/-- What the statements of a block take. -/
def planStmts (limits : Limits) (scope : ScopeId) (m : Machine) (last : Value) : List Stmt → Plan
  | [] => .done (if last.isPresent then last else .null) m
  | s :: ss => checking limits m fun m =>
    .ask (.stmt scope s) m fun v m =>
      if v.isReturned || v.isError then .done v m else .ask (.stmts scope ss v) m .done

/-- What the statements of a program take. -/
def planProgram (limits : Limits) (scope : ScopeId) (m : Machine) (last : Value) : Program → Plan
  | [] => .done last m
  | s :: ss => checking limits m fun m =>
    .ask (.stmt scope s) m fun v m =>
      match v with
      | .returned _ w => .done w m
      | .error fault => .done (.error fault) (m.note (.failed fault))
      | v => .ask (.program scope ss v) m .done

/-- What each task does. -/
def plan (limits : Limits) (m : Machine) : Task → Plan
  | .expr scope e => planExpr scope m e
  | .apply f args => planApply limits m args f
  | .stmt scope s => planStmt scope m s
  | .stmts scope ss last => planStmts limits scope m last ss
  | .program scope ss last => planProgram limits scope m last ss

end Task

/-! ## Carrying out a plan -/

/-- The result of a plan when `answer` gives that of each task it asks for. -/
def Plan.exec (answer : Task → Eval Value) : Plan → Option (Value × Machine)
  | .done v m => some (v, m)
  | .ask t m next => (answer t m).bind fun r => (next r.1 r.2).exec answer

/-- The function of the evaluator that a task is for. -/
def Task.run (limits : Limits) (fuel : Nat) : Task → Eval Value
  | .expr scope e => Eval.expr limits fuel scope e
  | .apply f args => Eval.apply limits fuel f args
  | .stmt scope s => Eval.stmt limits fuel scope s
  | .stmts scope ss last => Eval.stmts limits fuel scope ss last
  | .program scope ss last => Eval.program limits fuel scope ss last

section
variable (answer : Task → Eval Value)

theorem bind_apply {α β : Type} (x : Eval α) (f : α → Eval β) (m : Machine) :
    (x >>= f) m = (x m).bind fun r => f r.1 r.2 := rfl

/-- Handing on the answer is answering. -/
theorem Plan.exec_ask_done (t : Task) (m : Machine) :
    (Plan.ask t m .done).exec answer = answer t m := by
  simp only [exec]
  cases answer t m <;> rfl

theorem Plan.exec_operand (t : Task) (m : Machine) {g : Value → Eval Value}
    {next : Value → Machine → Plan}
    (h : ∀ v m, v.isError = false → g v m = (next v m).exec answer) :
    (answer t >>= fun v => if v.isError then pure v else g v) m =
      (operand t m next).exec answer := by
  rw [bind_apply, operand, exec]
  congr 1
  funext r
  obtain ⟨v, m'⟩ := r
  show (if v.isError then pure v else g v : Eval Value) m' =
    exec answer (if v.isError then .done v m' else next v m')
  by_cases hv : v.isError
  · rw [if_pos hv, if_pos hv]
    rfl
  · rw [if_neg hv, if_neg hv, h v m' (Bool.eq_false_iff.mpr hv)]

theorem failure?_eq_none {vs : List Value} (h : ∀ v ∈ vs, v.isError = false) : failure? vs = none := by
  cases vs with
  | nil => rfl
  | cons v vs =>
    cases vs with
    | nil => simp [failure?, h v List.mem_cons_self]
    | cons _ _ => rfl

/-- The evaluator first collects the values and then looks whether an error stands in their place; the plan stops
at the error. A single value is never mistaken for an error, because none of those collected is one. -/
theorem Plan.exec_operands {scope : ScopeId} {g : List Value → Eval Value} {next : List Value → Machine → Plan}
    (h : ∀ vs m, g vs m = (next vs m).exec answer) :
    ∀ (es : List Expr) (before : List Value) (m : Machine), (∀ v ∈ before, v.isError = false) →
      (values (fun e => answer (.expr scope e)) es before >>= fun vs =>
        match failure? vs with
        | some e => pure e
        | none => g vs) m = (operands scope es m fun vs m => next (before ++ vs) m).exec answer := by
  intro es
  induction es with
  | nil =>
    intro before m hbefore
    show (match failure? before with
      | some e => pure e
      | none => g before : Eval Value) m = _
    rw [failure?_eq_none hbefore, operands, List.append_nil]
    exact h before m
  | cons e es ih =>
    intro before m hbefore
    -- one operand, and what is then done with it and the values of the others
    rw [operands, ← exec_operand (g := fun v =>
      values (fun e => answer (.expr scope e)) es (before ++ [v]) >>= fun vs =>
        match failure? vs with
        | some e => pure e
        | none => g vs) answer]
    · simp only [values, bind_apply]
      cases answer (.expr scope e) m with
      | none => rfl
      | some r =>
        obtain ⟨v, m'⟩ := r
        by_cases hv : v.isError
        · simp only [Option.bind_some, hv, if_true]
          show (match failure? [v] with
            | some e => pure e
            | none => g [v] : Eval Value) m' = _
          rw [failure?, if_pos hv]
        · simp only [Option.bind_some, hv]
          rfl
    · intro v m hv
      have hbefore' : ∀ w ∈ before ++ [v], w.isError = false := by
        intro w hw
        rcases List.mem_append.mp hw with hw | hw
        · exact hbefore w hw
        · rwa [List.mem_singleton.mp hw]
      simpa only [List.append_assoc, List.singleton_append] using ih (before ++ [v]) m hbefore'

theorem Plan.exec_checking (limits : Limits) (m : Machine) {g : Eval Value}
    {next : Machine → Plan} (h : ∀ m, g m = (next m).exec answer) :
    (check limits >>= fun why? =>
      match why? with
      | some why => pure (.error (.cancelled why))
      | none => g) m = (checking limits m next).exec answer := by
  simp only [bind_apply, check, Machine.check, Option.bind_some, checking]
  cases limits.patience.answer m.asked with
  | some why => rfl
  | none => exact h _

end

/-! ## The evaluator carries out the plans -/

section
variable (limits : Limits) (fuel : Nat)

theorem expr_succ (scope : ScopeId) (e : Expr) (m : Machine) :
    expr limits (fuel + 1) scope e m = (Task.planExpr scope m e).exec (Task.run limits fuel) := by
  have ask (t : Task) (m : Machine) := Plan.exec_ask_done (Task.run limits fuel) t m
  cases e with
  | missing | ident _ | int _ _ | bool _ _ | fn _ _ _ => rfl
  | unary t op e =>
    exact Plan.exec_operand (Task.run limits fuel) (.expr scope e) m fun v m _ => rfl
  | binary t op l r =>
    exact Plan.exec_operand (Task.run limits fuel) (.expr scope l) m fun v m _ =>
      Plan.exec_operand (Task.run limits fuel) (.expr scope r) m fun w m _ => rfl
  | ifThen t c body =>
    refine Plan.exec_operand (Task.run limits fuel) (.expr scope c) m fun v m _ => ?_
    by_cases hv : v.isTruthy
    · rw [if_pos hv, if_pos hv, ask]
      rfl
    · rw [if_neg hv, if_neg hv]
      rfl
  | ifElse t c body other =>
    refine Plan.exec_operand (Task.run limits fuel) (.expr scope c) m fun v m _ => ?_
    by_cases hv : v.isTruthy
    · rw [if_pos hv, if_pos hv, ask]
      rfl
    · rw [if_neg hv, if_neg hv, ask]
      rfl
  | call t f args =>
    refine Plan.exec_operand (Task.run limits fuel) (.expr scope f) m fun v m _ => ?_
    exact Plan.exec_operands _ (fun vs m => (ask (.apply v vs) m).symm) args [] m (by simp)

theorem apply_succ (f : Value) (args : List Value) (m : Machine) :
    apply limits (fuel + 1) f args m =
      (Task.planApply limits m args f).exec (Task.run limits fuel) := by
  cases f with
  | fn id params body scope =>
    simp only [apply, Task.planApply]
    by_cases hlen : args.length ≠ params.length
    · rw [if_pos hlen, if_pos hlen]
      rfl
    · rw [if_neg hlen, if_neg hlen]
      refine Plan.exec_checking (Task.run limits fuel) limits m fun m => ?_
      simp only [bind_apply, tooDeep, Option.bind_some]
      by_cases hdeep : limits.forbidsCall m.depth
      · rw [if_pos hdeep, if_pos hdeep]
        rfl
      · rw [if_neg hdeep, if_neg hdeep]
        simp only [bind_apply, enter, Option.bind_some, Plan.exec]
        congr 1
        funext r
        obtain ⟨v, m'⟩ := r
        cases v <;> rfl
  | _ => rfl

theorem stmt_succ (scope : ScopeId) (s : Stmt) (m : Machine) :
    stmt limits (fuel + 1) scope s m = (Task.planStmt scope m s).exec (Task.run limits fuel) := by
  cases s with
  | bind t x e => exact Plan.exec_operand (Task.run limits fuel) (.expr scope e) m fun v m _ => rfl
  | ret t e => exact Plan.exec_operand (Task.run limits fuel) (.expr scope e) m fun v m _ => rfl
  | expr t e => exact (Plan.exec_ask_done (Task.run limits fuel) (.expr scope e) m).symm
  | block b =>
    exact (Plan.exec_ask_done (Task.run limits fuel) (.stmts scope b.stmts .absent) m).symm

theorem stmts_succ (scope : ScopeId) (ss : List Stmt) (last : Value) (m : Machine) :
    stmts limits (fuel + 1) scope ss last m =
      (Task.planStmts limits scope m last ss).exec (Task.run limits fuel) := by
  cases ss with
  | nil => rfl
  | cons s ss =>
    rw [stmts, Task.planStmts]
    refine Plan.exec_checking (Task.run limits fuel) limits m fun m => ?_
    simp only [bind_apply, Plan.exec]
    congr 1
    funext r
    obtain ⟨v, m'⟩ := r
    cases v with
    | returned _ _ | error _ => rfl
    | _ => exact (Plan.exec_ask_done (Task.run limits fuel) (.stmts scope ss _) m').symm

theorem program_succ (scope : ScopeId) (ss : Program) (last : Value) (m : Machine) :
    program limits (fuel + 1) scope ss last m =
      (Task.planProgram limits scope m last ss).exec (Task.run limits fuel) := by
  cases ss with
  | nil => rfl
  | cons s ss =>
    rw [program, Task.planProgram]
    refine Plan.exec_checking (Task.run limits fuel) limits m fun m => ?_
    simp only [bind_apply, Plan.exec]
    congr 1
    funext r
    obtain ⟨v, m'⟩ := r
    cases v with
    | returned _ _ | error _ => rfl
    | _ => exact (Plan.exec_ask_done (Task.run limits fuel) (.program scope ss _) m').symm

theorem Task.run_zero (t : Task) (m : Machine) : t.run limits 0 m = none := by
  cases t <;> rfl

/-- **Evaluation with one more unit of fuel carries out the plan**, with the remaining fuel for each task it
asks for. -/
theorem Task.run_succ (t : Task) (m : Machine) :
    t.run limits (fuel + 1) m = (t.plan limits m).exec (Task.run limits fuel) := by
  cases t with
  | expr scope e => exact expr_succ limits fuel scope e m
  | apply f args => exact apply_succ limits fuel f args m
  | stmt scope s => exact stmt_succ limits fuel scope s m
  | stmts scope ss last => exact stmts_succ limits fuel scope ss last m
  | program scope ss last => exact program_succ limits fuel scope ss last m

end

/-! ## What a task yields -/

/-- The task, started on `m`, ends with the value `v` on `m'`: evaluation gives this with some fuel. -/
def Yields (limits : Limits) (t : Task) (m : Machine) (v : Value) (m' : Machine) : Prop :=
  ∃ fuel, t.run limits fuel m = some (v, m')

/-- The plan ends with that value on that machine, when every task it asks for is answered by its own
plan. -/
inductive Resolves (limits : Limits) : Plan → Value → Machine → Prop where
  | done {v : Value} {m : Machine} : Resolves limits (.done v m) v m
  | ask {t : Task} {m m₁ m' : Machine} {next : Value → Machine → Plan} {a v : Value} :
      Resolves limits (t.plan limits m) a m₁ → Resolves limits (next a m₁) v m' →
      Resolves limits (.ask t m next) v m'

section
variable {limits : Limits}

theorem resolves_of_exec {fuel : Nat} (h : ∀ t m v m', Task.run limits fuel t m = some (v, m') →
      Resolves limits (t.plan limits m) v m') :
    ∀ {p : Plan} {v : Value} {m' : Machine}, p.exec (Task.run limits fuel) = some (v, m') →
      Resolves limits p v m' := by
  intro p
  induction p with
  | done w m =>
    intro v m' hp
    obtain ⟨rfl, rfl⟩ := Prod.mk.inj (Option.some.inj hp)
    exact .done
  | ask t m next ih =>
    intro v m' hp
    obtain ⟨⟨a, m₁⟩, ha, hnext⟩ := Option.bind_eq_some_iff.mp hp
    exact .ask (h t m a m₁ ha) (ih a m₁ hnext)

theorem resolves_of_run : ∀ {fuel : Nat} {t : Task} {m : Machine} {v : Value} {m' : Machine},
    t.run limits fuel m = some (v, m') → Resolves limits (t.plan limits m) v m' := by
  intro fuel
  induction fuel with
  | zero =>
    intro t m v m' h
    rw [Task.run_zero] at h
    exact absurd h (by simp)
  | succ fuel ih =>
    intro t m v m' h
    rw [Task.run_succ] at h
    exact resolves_of_exec (fun _ _ _ _ => ih) h

/-- Some fuel suffices for a plan that ends, and so does any larger amount. -/
theorem exec_of_resolves {p : Plan} {v : Value} {m' : Machine} (h : Resolves limits p v m') :
    ∃ enough, ∀ fuel ≥ enough, p.exec (Task.run limits fuel) = some (v, m') := by
  induction h with
  | done => exact ⟨0, fun _ _ => rfl⟩
  | ask _ _ iht ihnext =>
    obtain ⟨f₁, h₁⟩ := iht
    obtain ⟨f₂, h₂⟩ := ihnext
    -- the task that is asked for needs one unit more than its plan
    refine ⟨max (f₁ + 1) f₂, fun fuel hfuel => ?_⟩
    obtain ⟨g, rfl⟩ : ∃ g, fuel = g + 1 := ⟨fuel - 1, by omega⟩
    rw [Plan.exec, Task.run_succ, h₁ g (by omega)]
    exact h₂ (g + 1) (by omega)

theorem run_of_resolves {t : Task} {m : Machine} {v : Value} {m' : Machine}
    (h : Resolves limits (t.plan limits m) v m') :
    ∃ enough, ∀ fuel ≥ enough, t.run limits fuel m = some (v, m') := by
  obtain ⟨enough, henough⟩ := exec_of_resolves h
  refine ⟨enough + 1, fun fuel hfuel => ?_⟩
  obtain ⟨g, rfl⟩ : ∃ g, fuel = g + 1 := ⟨fuel - 1, by omega⟩
  rw [Task.run_succ]
  exact henough g (by omega)

/-- **Evaluation follows the plans**: it gives a result if and only if the plan of the task ends with it. -/
theorem yields_iff {t : Task} {m : Machine} {v : Value} {m' : Machine} :
    Yields limits t m v m' ↔ Resolves limits (t.plan limits m) v m' := by
  constructor
  · rintro ⟨fuel, h⟩
    exact resolves_of_run h
  · intro h
    obtain ⟨enough, henough⟩ := run_of_resolves h
    exact ⟨enough, henough enough (Nat.le_refl _)⟩

end

end Eval

end LetLang
