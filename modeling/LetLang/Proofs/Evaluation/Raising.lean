import LetLang.Proofs.Evaluation.Returns
import LetLang.Tree.Parser

/-!
# Errors as values and errors that are raised

In evaluation an error is a value, and every form of the language has its own way of looking whether a part of it
yielded one: a test after each operand, a lone error in place of several arguments, two more cases in blocks and
programs. One test that was forgotten would bind an error to a name, or go on with what comes after it.

`Raising` is the same evaluator with errors that are raised. It contains no such test. Nothing catches what is raised,
except that a program notes it on the way out; and a call that is left for that reason is left all the same. The two
evaluators do the same on every machine whose names are bound to proper values, and they keep it such a machine.
-/

set_option autoImplicit false

namespace LetLang

/-! ## The evaluator that raises -/

/-- A computation on the machine that may raise a fault instead of giving a result. What it did to the machine stays
done. -/
abbrev Raising := ExceptT Fault Eval

namespace Raising

def check (limits : Limits) : Raising Unit := do
  match ← Eval.check limits with
  | some why => throw (.cancelled why)
  | none => return ()

def name (scope : ScopeId) (x : String) : Raising Value := do
  match (← get).store.get? scope x with
  | some v => return v
  | none => throw (.notFound x)

/-- An operator that has no value for its operands raises the fault. -/
def operate : Value → Raising Value
  | .error fault => throw fault
  | v => return v

/-- Leaves the call after its body, also if the body raises a fault. -/
def leaving (body : Raising Value) : Raising Value := ExceptT.mk do
  let r ← body.run
  Eval.leave
  return r

/-- Notes the fault that a statement raises, and raises it again. -/
def noting (statement : Raising Value) : Raising Value :=
  tryCatch statement fun fault => do
    Eval.failed fault
    throw fault

mutual

def expr (limits : Limits) : Nat → ScopeId → Expr → Raising Value
  | 0, _, _ => Eval.outOfFuel
  | fuel + 1, scope, e =>
    match e with
    | .missing => return .null
    | .ident x => name scope x.name
    | .int _ n => return .int n
    | .bool _ b => return .bool b
    | .unary _ op operand => do
      let v ← expr limits fuel scope operand
      operate (v.unary op)
    | .binary _ op left right => do
      let l ← expr limits fuel scope left
      let r ← expr limits fuel scope right
      operate (l.binary op r)
    | .ifThen _ condition consequence => do
      let c ← expr limits fuel scope condition
      if c.isTruthy then stmts limits fuel scope consequence.stmts .absent
      else return .null
    | .ifElse _ condition consequence alternative => do
      let c ← expr limits fuel scope condition
      if c.isTruthy then stmts limits fuel scope consequence.stmts .absent
      else stmts limits fuel scope alternative.stmts .absent
    | .fn _ params body => Eval.withIdentity fun id => .fn id params body scope
    | .call _ callee args => do
      let f ← expr limits fuel scope callee
      let vs ← args.mapM fun e => expr limits fuel scope e
      apply limits fuel f vs

def apply (limits : Limits) : Nat → Value → List Value → Raising Value
  | 0, _, _ => Eval.outOfFuel
  | fuel + 1, f, args =>
    match f with
    | .fn _ params body scope => do
      if args.length ≠ params.length then throw (.argumentCount params.length args.length)
      check limits
      if ← Eval.tooDeep limits then throw (.tooDeep limits.maxDepth)
      let inner ← Eval.enter scope params args
      let v ← leaving (stmts limits fuel inner body.stmts .absent)
      return v.opened
    | f => throw (.notAFunction f.kind)

def stmt (limits : Limits) : Nat → ScopeId → Stmt → Raising Value
  | 0, _, _ => Eval.outOfFuel
  | fuel + 1, scope, s =>
    match s with
    | .bind _ x e => do
      let v ← expr limits fuel scope e
      Eval.assign scope x.name v
      return .absent
    | .ret _ e => do
      let v ← expr limits fuel scope e
      Eval.withIdentity fun id => .returned id v
    | .expr _ e => expr limits fuel scope e
    | .block b => stmts limits fuel scope b.stmts .absent

def stmts (limits : Limits) : Nat → ScopeId → List Stmt → Value → Raising Value
  | 0, _, _, _ => Eval.outOfFuel
  | _ + 1, _, [], last => return if last.isPresent then last else .null
  | fuel + 1, scope, s :: ss, _ => do
    check limits
    match ← stmt limits fuel scope s with
    | .returned id v => return .returned id v
    | v => stmts limits fuel scope ss v

end

def program (limits : Limits) : Nat → ScopeId → Program → Value → Raising Value
  | 0, _, _, _ => Eval.outOfFuel
  | _ + 1, _, [], last => return last
  | fuel + 1, scope, s :: ss, _ => do
    check limits
    match ← noting (stmt limits fuel scope s) with
    | .returned _ v => return v
    | v => program limits fuel scope ss v

def node (limits : Limits) (fuel : Nat) (scope : ScopeId) : Node → Raising Value
  | .program p => program limits fuel scope p .absent
  | .stmt s => stmt limits fuel scope s
  | .expr e => expr limits fuel scope e

end Raising

/-! ## Proper values -/

/-- A value that neither is nor wraps an error. -/
def Value.Faultless : Value → Prop
  | .error _ => False
  | .returned _ v => v.Faultless
  | _ => True

theorem Value.Faultless.isError {v : Value} (h : v.Faultless) : v.isError = false := by
  cases v with
  | error fault => exact h.elim
  | _ => rfl

theorem Value.Faultless.opened {v : Value} (h : v.Faultless) : v.opened.Faultless := by
  cases v <;> exact h

/-! ## Agreement -/

namespace Raising

/-- How failures stand among the results of a computation that does not raise them, and which of its results are
proper. -/
structure Reading (α : Type) where
  fail : Fault → α
  Proper : α → Prop

/-- A failure is an error in place of a value ... -/
def one : Reading Value := ⟨.error, Value.Faultless⟩

/-- ... and a lone one in place of several values. -/
def many : Reading (List Value) := ⟨fun fault => [.error fault], fun vs => ∀ v ∈ vs, v.Faultless⟩

variable {α β : Type} {R : Reading α} {S : Reading β} {x : Eval α} {y : Raising α} {f : α → Eval β}
  {g : α → Raising β} {m : Machine}

/-- From `m`, the computations `x` and `y` end alike and on the same machine, or neither ends. -/
inductive Alike (R : Reading α) (x : Eval α) (y : Raising α) (m : Machine) : Prop where
  | unfinished : x m = none → y m = none → Alike R x y m
  | raised (fault : Fault) (m' : Machine) : x m = some (R.fail fault, m') → y m = some (.error fault, m') →
      m'.store.All Value.Faultless → Alike R x y m
  | value (a : α) (m' : Machine) : x m = some (a, m') → y m = some (.ok a, m') → R.Proper a →
      m'.store.All Value.Faultless → Alike R x y m

/-- The computations are alike on every machine with proper values. -/
def Agrees (R : Reading α) (x : Eval α) (y : Raising α) : Prop :=
  ∀ m, m.store.All Value.Faultless → Alike R x y m

/-! ### Reading off agreement -/

section
variable {x : Eval Value} {y : Raising Value}

theorem Alike.error_iff (h : Alike one x y m) (fault : Fault) (m' : Machine) :
    x m = some (.error fault, m') ↔ y m = some (.error fault, m') := by
  cases h with
  | unfinished hx hy => simp [hx, hy]
  | raised fault₁ m₁ hx hy _ => simp [hx, hy, one]
  | value v m₁ hx hy hv _ =>
    simp only [hx, hy, Option.some.injEq, Prod.mk.injEq, reduceCtorEq, false_and, iff_false, not_and]
    rintro rfl
    exact hv.elim

theorem Alike.value_iff (h : Alike one x y m) (v : Value) (m' : Machine) :
    x m = some (v, m') ∧ v.isError = false ↔ y m = some (.ok v, m') := by
  cases h with
  | unfinished hx hy => simp [hx, hy]
  | raised fault m₁ hx hy _ =>
    simp only [hx, hy, one, Option.some.injEq, Prod.mk.injEq, reduceCtorEq, false_and, iff_false, not_and]
    rintro ⟨rfl, -⟩
    simp [Value.isError]
  | value w m₁ hx hy hw _ =>
    simp only [hx, hy, Option.some.injEq, Prod.mk.injEq, Except.ok.injEq, and_iff_left_iff_imp]
    rintro ⟨rfl, -⟩
    exact Value.Faultless.isError hw

theorem Alike.store (h : Alike one x y m) {v : Value} {m' : Machine} (hv : x m = some (v, m')) :
    m'.store.All Value.Faultless := by
  cases h with
  | unfinished hx _ => exact absurd (hx.symm.trans hv) (by simp)
  | raised fault m₁ hx _ hm₁ | value w m₁ hx _ _ hm₁ =>
    obtain ⟨-, rfl⟩ := Prod.mk.inj (Option.some.inj (hx.symm.trans hv))
    exact hm₁

end

/-! ### What is raised ends what follows -/

section
variable {ε : Type} {y : ExceptT ε Eval α} {g : α → ExceptT ε Eval β}

theorem bind_apply (y : ExceptT ε Eval α) (g : α → ExceptT ε Eval β) (m : Machine) :
    (y >>= g) m = (y m).bind fun r => ExceptT.bindCont g r.1 r.2 := rfl

theorem bind_of_none (h : y m = none) : (y >>= g) m = none := by
  rw [bind_apply, h]
  rfl

theorem bind_of_error {e : ε} {m' : Machine} (h : y m = some (.error e, m')) :
    (y >>= g) m = some (.error e, m') := by
  rw [bind_apply, h]
  rfl

theorem bind_of_ok {a : α} {m' : Machine} (h : y m = some (.ok a, m')) : (y >>= g) m = g a m' := by
  rw [bind_apply, h]
  rfl

theorem lift_of_none {x : Eval α} (h : x m = none) : (x : ExceptT ε Eval α) m = none := by
  show (x m).bind _ = _
  rw [h]
  rfl

theorem lift_of_some {x : Eval α} {a : α} {m' : Machine} (h : x m = some (a, m')) :
    (x : ExceptT ε Eval α) m = some (.ok a, m') := by
  show (x m).bind _ = _
  rw [h]
  rfl

end

/-! ### How agreement composes -/

theorem agrees_outOfFuel : Agrees R Eval.outOfFuel (Eval.outOfFuel : Eval (Except Fault α)) :=
  fun _ _ => .unfinished rfl rfl

theorem agrees_pure {a : α} (h : R.Proper a) : Agrees R (pure a) (pure a) :=
  fun m hm => .value a m rfl rfl h hm

theorem agrees_throw (fault : Fault) : Agrees R (pure (R.fail fault)) (throw fault) :=
  fun m hm => .raised fault m rfl rfl hm

/-- Going on from the same machine. -/
theorem Alike.of_eq {m' : Machine} {x' : Eval α} {y' : Raising α} (h : Alike R x y m') (hx : x' m = x m')
    (hy : y' m = y m') : Alike R x' y' m := by
  cases h with
  | unfinished hx' hy' => exact .unfinished (hx.trans hx') (hy.trans hy')
  | raised fault m₁ hx' hy' hm => exact .raised fault m₁ (hx.trans hx') (hy.trans hy') hm
  | value a m₁ hx' hy' ha hm => exact .value a m₁ (hx.trans hx') (hy.trans hy') ha hm

/-- **Handing on is raising**: if what comes next hands on the mark of a failure, it may as well not be started. -/
theorem agrees_bind (h : Agrees R x y) (hfail : ∀ fault, f (R.fail fault) = pure (S.fail fault))
    (hnext : ∀ a, R.Proper a → Agrees S (f a) (g a)) : Agrees S (x >>= f) (y >>= g) := by
  intro m hm
  cases h m hm with
  | unfinished hx hy =>
    refine .unfinished ?_ (bind_of_none hy)
    rw [Eval.bind_apply, hx]
    rfl
  | raised fault m' hx hy hm' =>
    refine .raised fault m' ?_ (bind_of_error hy) hm'
    rw [Eval.bind_apply, hx, Option.bind_some, hfail]
    rfl
  | value a m' hx hy ha hm' =>
    refine (hnext a ha m' hm').of_eq ?_ (bind_of_ok hy)
    rw [Eval.bind_apply, hx, Option.bind_some]

/-- What cannot fail is the same in both, as long as it keeps the values proper. -/
theorem agrees_lift
    (hx : ∀ m, m.store.All Value.Faultless → ∃ a m', x m = some (a, m') ∧ m'.store.All Value.Faultless)
    (hnext : ∀ a, Agrees S (f a) (g a)) : Agrees S (x >>= f) ((x : Raising α) >>= g) := by
  intro m hm
  obtain ⟨a, m', hxm, hm'⟩ := hx m hm
  refine (hnext a m' hm').of_eq ?_ (bind_of_ok (lift_of_some hxm))
  rw [Eval.bind_apply, hxm, Option.bind_some]

theorem agrees_withIdentity {make : Nat → Value} (h : ∀ id, (make id).Faultless) :
    Agrees one (Eval.withIdentity make) (Eval.withIdentity make : Eval Value) :=
  fun m hm => .value (make m.fresh) m.takeIdentity.2 rfl rfl (h m.fresh) hm

theorem check_apply (limits : Limits) (m : Machine) :
    check limits m = match limits.patience.answer m.asked with
      | some why => some (.error (.cancelled why), m.checked)
      | none => some (.ok (), m.checked) := by
  have hlift : (Eval.check limits : Raising (Option Interrupt)) m =
      some (.ok (limits.patience.answer m.asked), m.checked) := rfl
  rw [check, bind_of_ok hlift]
  cases limits.patience.answer m.asked with
  | some why => rfl
  | none => rfl

theorem agrees_checking (limits : Limits) (h : Agrees R x y) :
    Agrees R (Eval.check limits >>= fun why? =>
      match why? with
      | some why => pure (R.fail (.cancelled why))
      | none => x) (check limits >>= fun _ => y) := by
  intro m hm
  have hcheck := check_apply limits m
  cases hwhy : limits.patience.answer m.asked with
  | some why =>
    rw [hwhy] at hcheck
    refine .raised (.cancelled why) m.checked ?_ (bind_of_error hcheck) hm
    simp only [Eval.bind_apply, Eval.check, Machine.check, hwhy, Option.bind_some]
    rfl
  | none =>
    rw [hwhy] at hcheck
    refine (h m.checked hm).of_eq ?_ (bind_of_ok hcheck)
    simp only [Eval.bind_apply, Eval.check, Machine.check, hwhy, Option.bind_some]
    rfl

/-! ### Values to compute with -/

section
variable {x : Eval Value} {y : Raising Value} {f : Value → Eval Value} {g : Value → Raising Value}

/-- The test for an error hands it on. -/
theorem agrees_operand (h : Agrees one x y) (hnext : ∀ v, v.Faultless → Agrees one (f v) (g v)) :
    Agrees one (x >>= fun v => if v.isError then pure v else f v) (y >>= g) := by
  refine agrees_bind h (fun _ => rfl) fun v hv => ?_
  rw [hv.isError]
  exact hnext v hv

theorem agrees_operate {v : Value} (h : v.IsData) : Agrees one (pure v) (operate v) := by
  cases v with
  | error fault => exact agrees_throw fault
  | returned id w | fn id params body scope => exact h.elim
  | _ => exact agrees_pure (R := one) trivial

theorem agrees_name (scope : ScopeId) (x : String) : Agrees one (Eval.name scope x) (name scope x) := by
  intro m hm
  have hget : (get : Raising Machine) m = some (.ok m, m) := rfl
  cases hv : m.store.get? scope x with
  | none =>
    refine .raised (.notFound x) m ?_ ?_ hm
    · rw [Eval.name, hv]
      rfl
    · rw [name, bind_of_ok hget, hv]
      rfl
  | some v =>
    refine .value v m ?_ ?_ (hm.get? hv) hm
    · rw [Eval.name, hv]
      rfl
    · rw [name, bind_of_ok hget, hv]
      rfl

/-- A lone error in place of the values is what is raised instead of them. -/
theorem agrees_values {value : Expr → Eval Value} {value' : Expr → Raising Value}
    (h : ∀ e, Agrees one (value e) (value' e)) : ∀ (es : List Expr) (before : List Value),
      many.Proper before → Agrees many (Eval.values value es before)
        (es.mapM value' >>= fun vs => pure (before ++ vs)) := by
  intro es
  induction es with
  | nil =>
    intro before hbefore
    simp only [List.mapM_nil, pure_bind, List.append_nil]
    exact agrees_pure hbefore
  | cons e es ih =>
    intro before hbefore
    simp only [List.mapM_cons, bind_assoc, pure_bind]
    refine agrees_bind (h e) (fun _ => rfl) fun v hv => ?_
    have hbefore' : many.Proper (before ++ [v]) := by
      intro w hw
      rcases List.mem_append.mp hw with hw | hw
      · exact hbefore w hw
      · rwa [List.mem_singleton.mp hw]
    rw [if_neg (by simp [hv.isError])]
    simpa only [List.append_assoc, List.singleton_append] using ih (before ++ [v]) hbefore'

/-! ### Calls and programs -/

theorem leaving_apply (y : Raising Value) (m : Machine) :
    leaving y m = (y m).bind fun r => some (r.1, r.2.leave) := rfl

theorem agrees_leaving (h : Agrees one x y) :
    Agrees one (x >>= fun v => Eval.leave >>= fun _ => pure v) (leaving y) := by
  intro m hm
  cases h m hm with
  | unfinished hx hy =>
    refine .unfinished ?_ ?_
    · rw [Eval.bind_apply, hx, Option.bind_none]
    · rw [leaving_apply, hy, Option.bind_none]
  | raised fault m' hx hy hm' =>
    refine .raised fault m'.leave ?_ ?_ hm'
    · rw [Eval.bind_apply, hx]
      rfl
    · rw [leaving_apply, hy, Option.bind_some]
  | value v m' hx hy hv hm' =>
    refine .value v m'.leave ?_ ?_ hv hm'
    · rw [Eval.bind_apply, hx]
      rfl
    · rw [leaving_apply, hy, Option.bind_some]

/-- A call opens what its body returned. -/
theorem agrees_call (h : Agrees one x y) :
    Agrees one (x >>= fun v => Eval.leave >>= fun _ =>
      match v with
      | .returned _ w => pure w
      | v => pure v) (leaving y >>= fun v => pure v.opened) := by
  have hbody := agrees_bind (S := one) (f := fun v =>
    match v with
    | .returned _ w => pure w
    | v => pure v) (g := fun v => pure v.opened) (agrees_leaving h) (fun _ => rfl) fun v hv => by
      cases v <;> exact agrees_pure (R := one) hv.opened
  simpa only [bind_assoc, pure_bind] using hbody

theorem noting_apply (y : Raising Value) (m : Machine) :
    noting y m = (y m).bind fun r =>
      match r.1 with
      | .error fault => some (.error fault, r.2.note (.failed fault))
      | .ok v => some (.ok v, r.2) := by
  show (y m).bind _ = _
  congr 1
  funext r
  obtain ⟨r, m'⟩ := r
  cases r with
  | error fault => rfl
  | ok v => rfl

/-- A program notes the error of a statement before it hands it on. -/
theorem agrees_noting (h : Agrees one x y)
    (hfail : ∀ fault, f (.error fault) = (Eval.failed fault >>= fun _ => pure (.error fault)))
    (hnext : ∀ v, v.Faultless → Agrees one (f v) (g v)) : Agrees one (x >>= f) (noting y >>= g) := by
  intro m hm
  have hnoting := noting_apply y m
  cases h m hm with
  | unfinished hx hy =>
    rw [hy] at hnoting
    refine .unfinished ?_ (bind_of_none hnoting)
    rw [Eval.bind_apply, hx, Option.bind_none]
  | raised fault m' hx hy hm' =>
    rw [hy] at hnoting
    refine .raised fault (m'.note (.failed fault)) ?_ (bind_of_error hnoting) hm'
    rw [Eval.bind_apply, hx, Option.bind_some]
    exact congrFun (hfail fault) m'
  | value v m' hx hy hv hm' =>
    rw [hy] at hnoting
    refine (hnext v hv m' hm').of_eq ?_ (bind_of_ok hnoting)
    rw [Eval.bind_apply, hx, Option.bind_some]

end

/-! ## One lemma for each form -/

/-- With this fuel the two evaluators agree below programs. -/
structure Simulates (limits : Limits) (fuel : Nat) : Prop where
  expr : ∀ scope e, Agrees one (Eval.expr limits fuel scope e) (expr limits fuel scope e)
  apply : ∀ f args, many.Proper args → Agrees one (Eval.apply limits fuel f args) (apply limits fuel f args)
  stmt : ∀ scope s, Agrees one (Eval.stmt limits fuel scope s) (stmt limits fuel scope s)
  stmts : ∀ scope ss last, last.Faultless →
    Agrees one (Eval.stmts limits fuel scope ss last) (stmts limits fuel scope ss last)

section
variable {limits : Limits} {fuel : Nat}

theorem agrees_expr (ih : Simulates limits fuel) (scope : ScopeId) (e : Expr) :
    Agrees one (Eval.expr limits (fuel + 1) scope e) (expr limits (fuel + 1) scope e) := by
  have block (b : Block) := ih.stmts scope b.stmts .absent trivial
  cases e with
  | missing | int _ _ | bool _ _ => exact agrees_pure (R := one) trivial
  | ident x => exact agrees_name scope x.name
  | fn t params body =>
    have hmake : ∀ id, (Value.fn id params body scope).Faultless := fun _ => trivial
    exact agrees_withIdentity hmake
  | unary t op e =>
    exact agrees_operand (ih.expr scope e) fun v _ => agrees_operate (Value.isData_unary op v)
  | binary t op l r =>
    refine agrees_operand (ih.expr scope l) fun v _ => ?_
    exact agrees_operand (ih.expr scope r) fun w _ => agrees_operate (Value.isData_binary op v w)
  | ifThen t c b =>
    refine agrees_operand (ih.expr scope c) fun v _ => ?_
    split
    · exact block b
    · exact agrees_pure (R := one) trivial
  | ifElse t c b b' =>
    refine agrees_operand (ih.expr scope c) fun v _ => ?_
    split
    · exact block b
    · exact block b'
  | call t f args =>
    refine agrees_operand (ih.expr scope f) fun v _ => ?_
    have hargs := agrees_values (ih.expr scope) args [] (by simp [many])
    simp only [List.nil_append, bind_pure] at hargs
    -- a lone error is found again, and proper values are never taken for one
    refine agrees_bind hargs (fun _ => rfl) fun vs hvs => ?_
    rw [Eval.failure?_eq_none fun w hw => (hvs w hw).isError]
    exact ih.apply v vs hvs

theorem agrees_apply (ih : Simulates limits fuel) (f : Value) (args : List Value) (hargs : many.Proper args) :
    Agrees one (Eval.apply limits (fuel + 1) f args) (apply limits (fuel + 1) f args) := by
  cases f with
  | fn id params body scope =>
    simp only [Eval.apply, apply]
    by_cases hlen : args.length ≠ params.length
    · rw [if_pos hlen, if_pos hlen]
      exact agrees_throw (.argumentCount params.length args.length)
    · rw [if_neg hlen, if_neg hlen]
      refine agrees_checking (R := one) limits ?_
      refine agrees_lift (fun m hm => ⟨_, _, rfl, hm⟩) fun deep => ?_
      cases deep with
      | true => exact agrees_throw (.tooDeep limits.maxDepth)
      | false =>
        refine agrees_lift (fun m hm => ⟨_, _, rfl, ?_⟩) fun inner => ?_
        · exact Machine.called_all hm hargs scope params
        · exact agrees_call (ih.stmts inner body.stmts .absent trivial)
  | _ => exact agrees_throw _

theorem agrees_stmt (ih : Simulates limits fuel) (scope : ScopeId) (s : Stmt) :
    Agrees one (Eval.stmt limits (fuel + 1) scope s) (stmt limits (fuel + 1) scope s) := by
  cases s with
  | bind t x e =>
    refine agrees_operand (ih.expr scope e) fun v hv => ?_
    refine agrees_lift (fun m hm => ⟨_, _, rfl, ?_⟩) fun _ => ?_
    · exact hm.set hv scope x.name
    · exact agrees_pure (R := one) trivial
  | ret t e => exact agrees_operand (ih.expr scope e) fun v hv => agrees_withIdentity fun _ => hv
  | expr t e => exact ih.expr scope e
  | block b => exact ih.stmts scope b.stmts .absent trivial

theorem agrees_stmts (ih : Simulates limits fuel) (scope : ScopeId) (ss : List Stmt) (last : Value)
    (hlast : last.Faultless) :
    Agrees one (Eval.stmts limits (fuel + 1) scope ss last) (stmts limits (fuel + 1) scope ss last) := by
  cases ss with
  | nil =>
    refine agrees_pure (R := one) ?_
    split
    · exact hlast
    · trivial
  | cons s ss =>
    refine agrees_checking (R := one) limits (agrees_bind (ih.stmt scope s) (fun _ => rfl) fun v hv => ?_)
    cases v with
    | error fault => exact hv.elim
    | returned id w => exact agrees_pure (R := one) hv
    | _ => exact ih.stmts scope ss _ hv

theorem simulates (limits : Limits) : ∀ fuel, Simulates limits fuel := by
  intro fuel
  induction fuel with
  | zero => exact ⟨fun _ _ => agrees_outOfFuel, fun _ _ _ => agrees_outOfFuel, fun _ _ => agrees_outOfFuel,
      fun _ _ _ _ => agrees_outOfFuel⟩
  | succ fuel ih => exact ⟨agrees_expr ih, agrees_apply ih, agrees_stmt ih, agrees_stmts ih⟩

theorem agrees_program (limits : Limits) (scope : ScopeId) : ∀ (fuel : Nat) (ss : Program) (last : Value),
    last.Faultless → Agrees one (Eval.program limits fuel scope ss last) (program limits fuel scope ss last) := by
  intro fuel
  induction fuel with
  | zero => exact fun _ _ _ => agrees_outOfFuel
  | succ fuel ih =>
    intro ss last hlast
    cases ss with
    | nil => exact agrees_pure (R := one) hlast
    | cons s ss =>
      have hstmt := (simulates limits fuel).stmt scope s
      refine agrees_checking (R := one) limits (agrees_noting hstmt (fun _ => rfl) fun v hv => ?_)
      cases v with
      | error fault => exact hv.elim
      | returned id w => exact agrees_pure (R := one) hv
      | _ => exact ih ss _ hv

theorem agrees_node (limits : Limits) (fuel : Nat) (scope : ScopeId) (n : Node) :
    Agrees one (Eval.node limits fuel scope n) (node limits fuel scope n) := by
  cases n with
  | program p => exact agrees_program limits scope fuel p .absent trivial
  | stmt s => exact (simulates limits fuel).stmt scope s
  | expr e => exact (simulates limits fuel).expr scope e

end

end Raising

/-! ## Evaluation -/

/-- **Errors as values behave like exceptions.** From a store of proper values, with any limits and any fuel, evaluation
yields an error if and only if the other evaluator raises it, and any other value if and only if the other gives it.
Both leave the same machine: the same scopes, the same number of questions and the same events in the same order. And
the store that is left has proper values again. -/
theorem node_iff_raising (limits : Limits) (fuel : Nat) (scope : ScopeId) (n : Node) {m : Machine}
    (h : m.store.All Value.Faultless) :
    (∀ fault m', Eval.node limits fuel scope n m = some (.error fault, m') ↔
      Raising.node limits fuel scope n m = some (.error fault, m')) ∧
    (∀ v m', Eval.node limits fuel scope n m = some (v, m') ∧ v.isError = false ↔
      Raising.node limits fuel scope n m = some (.ok v, m')) ∧
    ∀ v m', Eval.node limits fuel scope n m = some (v, m') → m'.store.All Value.Faultless := by
  have halike := Raising.agrees_node limits fuel scope n m h
  exact ⟨halike.error_iff, halike.value_iff, fun _ _ => halike.store⟩

/-- A division by zero inside a call, an argument of another one, on the right of an operator. -/
def failingCall : Program := (Program.ofSource (.ofString
  "let f = fn(x, y) \x7b x / y \x7d; let a = 1; let b = a + f(a, f(a, a - 1)); let a = 2;")).1

/-- It is raised by the other evaluator on the same machine. -/
theorem node_iff_raising_failingCall : ∃ m',
    Eval.node {} 40 0 (.program failingCall) (Machine.newScope {}).2 = some (.error .divisionByZero, m') ∧
    Raising.node {} 40 0 (.program failingCall) (Machine.newScope {}).2 = some (.error .divisionByZero, m') ∧
    m'.store.All Value.Faultless := by
  obtain ⟨herror, -, hstore⟩ := node_iff_raising {} 40 0 (.program failingCall) (m := (Machine.newScope {}).2)
    Store.all_newScope
  have hruns : (Eval.node {} 40 0 (.program failingCall) (Machine.newScope {}).2).any (fun r =>
      match r.1 with
      | .error fault => fault = .divisionByZero
      | _ => false) = true := by decide +kernel
  obtain ⟨⟨v, m'⟩, hv, hfault⟩ := (Option.any_eq_true _ _).mp hruns
  cases v with
  | error fault =>
    obtain rfl : fault = .divisionByZero := by simpa using hfault
    exact ⟨m', hv, (herror _ _).mp hv, hstore _ _ hv⟩
  | _ => exact absurd hfault (by simp)

end LetLang
