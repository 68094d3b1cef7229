import LetLang.Proofs.Evaluation.Raising
import LetLang.Proofs.Evaluation.ReturnPosition

/-!
# Returns as values and returns that leave

In evaluation a `return` yields a marked value. Blocks hand it on, a call or the program opens it, and everything else
takes it for a value like any other. This is meant to be an early exit: what the `return` stands in is left, up to the
call or the program.

`Exiting` is the same evaluator with returns that do leave. It knows no marked values: a `return` throws the value of its
operand, and it is caught where a body or a program ends. For programs whose returns are all in statement position the
two do exactly the same. What has to be followed through the run is that no name is ever bound to a marked value, and
that every function that is ever called has its own returns in place, wherever it was made.
-/

set_option autoImplicit false

namespace LetLang

/-! ## The evaluator that leaves -/

/-- A computation on the machine that may be left with a value. What it did to the machine stays done. -/
abbrev Exiting := ExceptT Value Eval

namespace Exiting

/-- Leaves with a value. A number is used up as if the value were marked, so that the functions that are made later have
the same numbers as in the other evaluator. -/
def exit (v : Value) : Exiting Value := do
  let v ← Eval.withIdentity fun _ => v
  throw v

/-- The value of a body or a program, or else the one it was left with. -/
def caught (body : Exiting Value) : Eval Value := do
  match ← body.run with
  | .ok v => return v
  | .error v => return v

def values (value : Expr → Exiting Value) : List Expr → List Value → Exiting (List Value)
  | [], before => return before
  | e :: es, before => do
    let v ← value e
    if v.isError then return [v]
    values value es (before ++ [v])

mutual

def expr (limits : Limits) : Nat → ScopeId → Expr → Exiting Value
  | 0, _, _ => Eval.outOfFuel
  | fuel + 1, scope, e =>
    match e with
    | .missing => return .null
    | .ident x => Eval.name scope x.name
    | .int _ n => return .int n
    | .bool _ b => return .bool b
    | .unary _ op operand => do
      let v ← expr limits fuel scope operand
      if v.isError then return v
      return v.unary op
    | .binary _ op left right => do
      let l ← expr limits fuel scope left
      if l.isError then return l
      let r ← expr limits fuel scope right
      if r.isError then return r
      return l.binary op r
    | .ifThen _ condition consequence => do
      let c ← expr limits fuel scope condition
      if c.isError then return c
      if c.isTruthy then stmts limits fuel scope consequence.stmts .absent
      else return .null
    | .ifElse _ condition consequence alternative => do
      let c ← expr limits fuel scope condition
      if c.isError then return c
      if c.isTruthy then stmts limits fuel scope consequence.stmts .absent
      else stmts limits fuel scope alternative.stmts .absent
    | .fn _ params body => Eval.withIdentity fun id => .fn id params body scope
    | .call _ callee args => do
      let f ← expr limits fuel scope callee
      if f.isError then return f
      let vs ← values (fun e => expr limits fuel scope e) args []
      match Eval.failure? vs with
      | some e => return e
      | none => apply limits fuel f vs

def apply (limits : Limits) : Nat → Value → List Value → Exiting Value
  | 0, _, _ => Eval.outOfFuel
  | fuel + 1, f, args =>
    match f with
    | .fn _ params body scope => do
      if args.length ≠ params.length then
        return .error (.argumentCount params.length args.length)
      match ← Eval.check limits with
      | some why => return .error (.cancelled why)
      | none =>
        if ← Eval.tooDeep limits then return .error (.tooDeep limits.maxDepth)
        let inner ← Eval.enter scope params args
        let v ← caught (stmts limits fuel inner body.stmts .absent)
        Eval.leave
        return v
    | f => return .error (.notAFunction f.kind)

def stmt (limits : Limits) : Nat → ScopeId → Stmt → Exiting Value
  | 0, _, _ => Eval.outOfFuel
  | fuel + 1, scope, s =>
    match s with
    | .bind _ x e => do
      let v ← expr limits fuel scope e
      if v.isError then return v
      Eval.assign scope x.name v
      return .absent
    | .ret _ e => do
      let v ← expr limits fuel scope e
      if v.isError then return v
      exit v
    | .expr _ e => expr limits fuel scope e
    | .block b => stmts limits fuel scope b.stmts .absent

def stmts (limits : Limits) : Nat → ScopeId → List Stmt → Value → Exiting Value
  | 0, _, _, _ => Eval.outOfFuel
  | _ + 1, _, [], last => return if last.isPresent then last else .null
  | fuel + 1, scope, s :: ss, _ => do
    match ← Eval.check limits with
    | some why => return .error (.cancelled why)
    | none =>
      match ← stmt limits fuel scope s with
      | .error fault => return .error fault
      | v => stmts limits fuel scope ss v

end

def program (limits : Limits) : Nat → ScopeId → Program → Value → Exiting Value
  | 0, _, _, _ => Eval.outOfFuel
  | _ + 1, _, [], last => return last
  | fuel + 1, scope, s :: ss, _ => do
    match ← Eval.check limits with
    | some why => return .error (.cancelled why)
    | none =>
      match ← stmt limits fuel scope s with
      | .error fault => do
        Eval.failed fault
        return .error fault
      | v => program limits fuel scope ss v

def evaluate (limits : Limits) (fuel : Nat) (scope : ScopeId) (p : Program) : Eval Value :=
  caught (program limits fuel scope p .absent)

/-! ## Agreement -/

open Raising (bind_of_none bind_of_error bind_of_ok lift_of_none lift_of_some)

variable {α : Type} {may may' : Bool} {m : Machine} {x : Eval Value} {y : Exiting Value} {f : Value → Eval Value}
  {g : Value → Exiting Value}

/-- From `m`, neither computation ends, or they end alike and on the same machine. If `may` is set they may be left by a
`return`; the one that does not leave then yields the marked value. -/
inductive Alike (may : Bool) (x : Eval Value) (y : Exiting Value) (m : Machine) : Prop where
  | unfinished : x m = none → y m = none → Alike may x y m
  | left (i : Nat) (v : Value) (m' : Machine) : may = true → x m = some (.returned i v, m') →
      y m = some (.error v, m') → v.Ordinary → m'.store.All Value.Ordinary → Alike may x y m
  | value (v : Value) (m' : Machine) : x m = some (v, m') → y m = some (.ok v, m') → v.Ordinary →
      m'.store.All Value.Ordinary → Alike may x y m

def Agrees (may : Bool) (x : Eval Value) (y : Exiting Value) : Prop :=
  ∀ m, m.store.All Value.Ordinary → Alike may x y m

theorem Alike.of_eq {m' : Machine} {x' : Eval Value} {y' : Exiting Value} (h : Alike may x y m')
    (hx : x' m = x m') (hy : y' m = y m') : Alike may x' y' m := by
  cases h with
  | unfinished hx' hy' => exact .unfinished (hx.trans hx') (hy.trans hy')
  | left i v m₁ hmay hx' hy' hv hm => exact .left i v m₁ hmay (hx.trans hx') (hy.trans hy') hv hm
  | value v m₁ hx' hy' hv hm => exact .value v m₁ (hx.trans hx') (hy.trans hy') hv hm

theorem agrees_outOfFuel : Agrees may Eval.outOfFuel (Eval.outOfFuel : Eval (Except Value Value)) :=
  fun _ _ => .unfinished rfl rfl

theorem agrees_pure {v : Value} (h : v.Ordinary) : Agrees may (pure v) (pure v) :=
  fun m hm => .value v m rfl rfl h hm

theorem agrees_error (fault : Fault) : Agrees may (pure (.error fault)) (pure (.error fault)) :=
  agrees_pure (Value.IsData.ordinary trivial)

/-- A part that may be left can only stand where this may be left too, and what comes next has to hand on the marked
value. -/
theorem agrees_bind (h : Agrees may' x y)
    (hmark : may' = true → may = true ∧ ∀ i v, f (.returned i v) = pure (.returned i v))
    (hnext : ∀ v, v.Ordinary → Agrees may (f v) (g v)) : Agrees may (x >>= f) (y >>= g) := by
  intro m hm
  cases h m hm with
  | unfinished hx hy =>
    refine .unfinished ?_ (bind_of_none hy)
    rw [Eval.bind_apply, hx, Option.bind_none]
  | left i v m' hmay hx hy hv hm' =>
    obtain ⟨hmay', hf⟩ := hmark hmay
    refine .left i v m' hmay' ?_ (bind_of_error hy) hv hm'
    rw [Eval.bind_apply, hx, Option.bind_some, hf]
    rfl
  | value v m' hx hy hv hm' =>
    refine (hnext v hv m' hm').of_eq ?_ (bind_of_ok hy)
    rw [Eval.bind_apply, hx, Option.bind_some]

/-- A part that something computes with is never left. -/
theorem agrees_operand (h : Agrees false x y) (hnext : ∀ v, v.Ordinary → Agrees may (f v) (g v)) :
    Agrees may (x >>= fun v => if v.isError then pure v else f v)
      (y >>= fun v => if v.isError then pure v else g v) := by
  refine agrees_bind h (fun hfalse => absurd hfalse (by simp)) fun v hv => ?_
  by_cases herror : v.isError
  · rw [if_pos herror, if_pos herror]
    exact agrees_pure hv
  · rw [if_neg herror, if_neg herror]
    exact hnext v hv

/-- What always ends is the same in both, as long as it keeps the values ordinary. -/
theorem agrees_lift {x : Eval α} {f : α → Eval Value} {g : α → Exiting Value}
    (hx : ∀ m, m.store.All Value.Ordinary → ∃ a m', x m = some (a, m') ∧ m'.store.All Value.Ordinary)
    (hnext : ∀ a, Agrees may (f a) (g a)) : Agrees may (x >>= f) ((x : Exiting α) >>= g) := by
  intro m hm
  obtain ⟨a, m', hxm, hm'⟩ := hx m hm
  refine (hnext a m' hm').of_eq ?_ (bind_of_ok (lift_of_some hxm))
  rw [Eval.bind_apply, hxm, Option.bind_some]

theorem agrees_checking (limits : Limits) (h : Agrees may x y) :
    Agrees may (Eval.check limits >>= fun why? =>
      match why? with
      | some why => pure (.error (.cancelled why))
      | none => x) ((Eval.check limits : Exiting (Option Interrupt)) >>= fun why? =>
      match why? with
      | some why => pure (.error (.cancelled why))
      | none => y) := by
  refine agrees_lift (fun m hm => ⟨_, _, rfl, hm⟩) fun why? => ?_
  cases why? with
  | some why => exact agrees_error _
  | none => exact h

theorem agrees_withIdentity {make : Nat → Value} (h : ∀ id, (make id).Ordinary) :
    Agrees may (Eval.withIdentity make) (Eval.withIdentity make : Eval Value) :=
  fun m hm => .value (make m.fresh) m.takeIdentity.2 rfl rfl (h m.fresh) hm

theorem agrees_exit {v : Value} (h : v.Ordinary) :
    Agrees true (Eval.withIdentity fun id => .returned id v) (exit v) :=
  fun m hm => .left m.fresh v m.takeIdentity.2 rfl rfl rfl h hm

theorem agrees_name (scope : ScopeId) (x : String) :
    Agrees may (Eval.name scope x) (Eval.name scope x : Eval Value) := by
  intro m hm
  refine .value _ m rfl rfl ?_ hm
  cases hv : m.store.get? scope x with
  | none => exact Value.IsData.ordinary trivial
  | some v => exact hm.get? hv

theorem mem_of_failure? {vs : List Value} {e : Value} (h : Eval.failure? vs = some e) : e ∈ vs := by
  unfold Eval.failure? at h
  split at h
  · split at h
    · simpa using h.symm
    · exact absurd h (by simp)
  · exact absurd h (by simp)

theorem agrees_values {value : Expr → Eval Value} {value' : Expr → Exiting Value} {k : List Value → Eval Value}
    {k' : List Value → Exiting Value} (hk : ∀ vs, (∀ v ∈ vs, v.Ordinary) → Agrees may (k vs) (k' vs)) :
    ∀ (es : List Expr) (before : List Value), (∀ e ∈ es, Agrees false (value e) (value' e)) →
      (∀ v ∈ before, v.Ordinary) →
      Agrees may (Eval.values value es before >>= k) (values value' es before >>= k') := by
  intro es
  induction es with
  | nil => exact fun before _ hbefore => hk before hbefore
  | cons e es ih =>
    intro before hes hbefore
    simp only [Eval.values, values, bind_assoc]
    refine agrees_bind (hes e List.mem_cons_self) (fun hfalse => absurd hfalse (by simp)) fun v hv => ?_
    by_cases herror : v.isError
    · simp only [herror, if_true, pure_bind]
      exact hk [v] (by simpa using hv)
    · simp only [herror]
      refine ih (before ++ [v]) (fun e' he => hes e' (List.mem_cons_of_mem _ he)) fun w hw => ?_
      rcases List.mem_append.mp hw with hw | hw
      · exact hbefore w hw
      · rwa [List.mem_singleton.mp hw]

/-! ### Where what is thrown is caught -/

theorem caught_apply (y : Exiting Value) (m : Machine) :
    caught y m = (y m).bind fun r =>
      match r.1 with
      | .ok v => some (v, r.2)
      | .error v => some (v, r.2) := by
  show (y m).bind _ = _
  congr 1
  funext r
  obtain ⟨r, m'⟩ := r
  cases r with
  | error v => rfl
  | ok v => rfl

/-- A call opens what its body returned, and in the other evaluator it catches it. -/
theorem agrees_call (h : Agrees true x y) :
    Agrees may (x >>= fun v => Eval.leave >>= fun _ =>
      match v with
      | .returned _ w => pure w
      | v => pure v) ((caught y : Exiting Value) >>= fun v => (Eval.leave : Exiting Unit) >>= fun _ => pure v) := by
  intro m hm
  have hcaught := caught_apply y m
  cases h m hm with
  | unfinished hx hy =>
    rw [hy, Option.bind_none] at hcaught
    refine .unfinished ?_ (bind_of_none (lift_of_none hcaught))
    rw [Eval.bind_apply, hx, Option.bind_none]
  | left i v m' _ hx hy hv hm' =>
    rw [hy, Option.bind_some] at hcaught
    refine .value v m'.leave ?_ (bind_of_ok (lift_of_some hcaught)) hv hm'
    rw [Eval.bind_apply, hx]
    rfl
  | value v m' hx hy hv hm' =>
    rw [hy, Option.bind_some] at hcaught
    refine .value v m'.leave ?_ (bind_of_ok (lift_of_some hcaught)) hv hm'
    rw [Eval.bind_apply, hx]
    cases v with
    | returned i w => exact absurd hv.2 (by simp [Value.Plain, Value.isReturned])
    | _ => rfl

/-! ## One lemma for each form -/

/-- With this fuel the two evaluators agree below programs. -/
structure Simulates (limits : Limits) (fuel : Nat) : Prop where
  expr : ∀ may scope e, e.wellPlaced may = true →
    Agrees may (Eval.expr limits fuel scope e) (expr limits fuel scope e)
  apply : ∀ may f args, f.Ordinary → (∀ v ∈ args, v.Ordinary) →
    Agrees may (Eval.apply limits fuel f args) (apply limits fuel f args)
  stmt : ∀ may scope s, s.wellPlaced may = true →
    Agrees may (Eval.stmt limits fuel scope s) (stmt limits fuel scope s)
  stmts : ∀ may scope ss last, Stmt.allWellPlaced may ss = true → last.Ordinary →
    Agrees may (Eval.stmts limits fuel scope ss last) (stmts limits fuel scope ss last)

section
variable {limits : Limits} {fuel : Nat}

theorem agrees_block (ih : Simulates limits fuel) (scope : ScopeId) {b : Block} (hb : b.wellPlaced may = true) :
    Agrees may (Eval.stmts limits fuel scope b.stmts .absent) (stmts limits fuel scope b.stmts .absent) := by
  rw [← Block.allWellPlaced_stmts] at hb
  exact ih.stmts may scope b.stmts .absent hb (Value.IsData.ordinary trivial)

theorem agrees_expr (ih : Simulates limits fuel) (may : Bool) (scope : ScopeId) (e : Expr)
    (he : e.wellPlaced may = true) :
    Agrees may (Eval.expr limits (fuel + 1) scope e) (expr limits (fuel + 1) scope e) := by
  cases e with
  | missing | int _ _ | bool _ _ => exact agrees_pure (Value.IsData.ordinary trivial)
  | ident x => exact agrees_name scope x.name
  | fn t params body =>
    rw [Expr.wellPlaced] at he
    have hmake : ∀ id, (Value.fn id params body scope).Ordinary := fun _ => ⟨he, rfl⟩
    exact agrees_withIdentity hmake
  | unary t op e =>
    rw [Expr.wellPlaced] at he
    exact agrees_operand (ih.expr false scope e he) fun v _ => agrees_pure (Value.isData_unary op v).ordinary
  | binary t op l r =>
    rw [Expr.wellPlaced, Bool.and_eq_true] at he
    refine agrees_operand (ih.expr false scope l he.1) fun v _ => ?_
    refine agrees_operand (ih.expr false scope r he.2) fun w _ => ?_
    exact agrees_pure (Value.isData_binary op v w).ordinary
  | ifThen t c b =>
    rw [Expr.wellPlaced, Bool.and_eq_true] at he
    refine agrees_operand (ih.expr false scope c he.1) fun v _ => ?_
    split
    · exact agrees_block ih scope he.2
    · exact agrees_pure (Value.IsData.ordinary trivial)
  | ifElse t c b b' =>
    rw [Expr.wellPlaced, Bool.and_eq_true, Bool.and_eq_true] at he
    refine agrees_operand (ih.expr false scope c he.1.1) fun v _ => ?_
    split
    · exact agrees_block ih scope he.1.2
    · exact agrees_block ih scope he.2
  | call t f args =>
    rw [Expr.wellPlaced, Bool.and_eq_true] at he
    have hargs := Expr.wellPlaced_of_mem he.2
    refine agrees_operand (ih.expr false scope f he.1) fun v hv => ?_
    refine agrees_values (fun vs hvs => ?_) args [] (fun e he => ih.expr false scope e (hargs e he)) (by simp)
    cases hfail : Eval.failure? vs with
    | some e => exact agrees_pure (hvs e (mem_of_failure? hfail))
    | none => exact ih.apply may v vs hv hvs

theorem agrees_apply (ih : Simulates limits fuel) (may : Bool) (f : Value) (args : List Value) (hf : f.Ordinary)
    (hargs : ∀ v ∈ args, v.Ordinary) :
    Agrees may (Eval.apply limits (fuel + 1) f args) (apply limits (fuel + 1) f args) := by
  cases f with
  | fn id params body scope =>
    simp only [Eval.apply, apply]
    by_cases hlen : args.length ≠ params.length
    · rw [if_pos hlen, if_pos hlen]
      exact agrees_error _
    · rw [if_neg hlen, if_neg hlen]
      refine agrees_checking limits ?_
      refine agrees_lift (fun m hm => ⟨_, _, rfl, hm⟩) fun deep => ?_
      cases deep with
      | true => exact agrees_error _
      | false =>
        refine agrees_lift (fun m hm => ⟨_, _, rfl, ?_⟩) fun inner => ?_
        · exact Machine.called_all hm hargs scope params
        · -- in a body a `return` may stand again, wherever the call stands
          exact agrees_call (agrees_block ih inner hf.1)
  | _ => exact agrees_error _

theorem agrees_stmt (ih : Simulates limits fuel) (may : Bool) (scope : ScopeId) (s : Stmt)
    (hs : s.wellPlaced may = true) :
    Agrees may (Eval.stmt limits (fuel + 1) scope s) (stmt limits (fuel + 1) scope s) := by
  cases s with
  | bind t x e =>
    rw [Stmt.wellPlaced] at hs
    refine agrees_operand (ih.expr false scope e hs) fun v hv => ?_
    refine agrees_lift (fun m hm => ⟨_, _, rfl, ?_⟩) fun _ => ?_
    · exact hm.set hv scope x.name
    · exact agrees_pure (Value.IsData.ordinary trivial)
  | ret t e =>
    rw [Stmt.wellPlaced, Bool.and_eq_true] at hs
    obtain ⟨rfl, he⟩ := hs
    exact agrees_operand (ih.expr false scope e he) fun v hv => agrees_exit hv
  | expr t e =>
    rw [Stmt.wellPlaced] at hs
    exact ih.expr may scope e hs
  | block b =>
    rw [Stmt.wellPlaced] at hs
    exact agrees_block ih scope hs

theorem agrees_stmts (ih : Simulates limits fuel) (may : Bool) (scope : ScopeId) (ss : List Stmt) (last : Value)
    (hss : Stmt.allWellPlaced may ss = true) (hlast : last.Ordinary) :
    Agrees may (Eval.stmts limits (fuel + 1) scope ss last) (stmts limits (fuel + 1) scope ss last) := by
  cases ss with
  | nil =>
    refine agrees_pure ?_
    split
    · exact hlast
    · exact Value.IsData.ordinary trivial
  | cons s ss =>
    rw [Stmt.allWellPlaced, Bool.and_eq_true] at hss
    refine agrees_checking limits ?_
    refine agrees_bind (ih.stmt may scope s hss.1) (fun hmay => ⟨hmay, fun _ _ => rfl⟩) fun v hv => ?_
    cases v with
    | returned i w => exact absurd hv.2 (by simp [Value.Plain, Value.isReturned])
    | error fault => exact agrees_error fault
    | _ => exact ih.stmts may scope ss _ hss.2 hv

theorem simulates (limits : Limits) : ∀ fuel, Simulates limits fuel := by
  intro fuel
  induction fuel with
  | zero =>
    exact ⟨fun _ _ _ _ => agrees_outOfFuel, fun _ _ _ _ _ => agrees_outOfFuel, fun _ _ _ _ => agrees_outOfFuel,
      fun _ _ _ _ _ _ => agrees_outOfFuel⟩
  | succ fuel ih => exact ⟨agrees_expr ih, agrees_apply ih, agrees_stmt ih, agrees_stmts ih⟩

/-- A program opens what a statement returned, and in the other evaluator nothing comes after it. -/
theorem caught_bind_eq (h : Alike true x y m) (hreturned : ∀ i v, f (.returned i v) = pure v)
    (hnext : ∀ v m', v.Ordinary → m'.store.All Value.Ordinary → f v m' = caught (g v) m') :
    (x >>= f) m = caught (y >>= g) m := by
  rw [Eval.bind_apply, caught_apply]
  cases h with
  | unfinished hx hy => rw [hx, bind_of_none hy, Option.bind_none, Option.bind_none]
  | left i v m' _ hx hy _ _ =>
    rw [hx, bind_of_error hy, Option.bind_some, Option.bind_some, hreturned]
    rfl
  | value v m' hx hy hv hm' =>
    rw [hx, bind_of_ok hy, Option.bind_some, ← caught_apply]
    exact hnext v m' hv hm'

theorem program_eq_caught (limits : Limits) (scope : ScopeId) : ∀ (fuel : Nat) (ss : Program) (last : Value)
    (m : Machine), Stmt.allWellPlaced true ss = true → m.store.All Value.Ordinary →
    Eval.program limits fuel scope ss last m = caught (program limits fuel scope ss last) m := by
  intro fuel
  induction fuel with
  | zero => exact fun _ _ _ _ _ => rfl
  | succ fuel ih =>
    intro ss last m hss hm
    cases ss with
    | nil => rfl
    | cons s ss =>
      rw [Stmt.allWellPlaced, Bool.and_eq_true] at hss
      have hcheck : Eval.check limits m = some (limits.patience.answer m.asked, m.checked) := rfl
      rw [Eval.program, program, caught_apply, bind_of_ok (lift_of_some hcheck), Eval.bind_apply, hcheck,
        Option.bind_some, ← caught_apply]
      cases limits.patience.answer m.asked with
      | some why => rfl
      | none =>
        refine caught_bind_eq ((simulates limits fuel).stmt true scope s hss.1 m.checked hm) (fun _ _ => rfl) ?_
        intro v m' hv hm'
        cases v with
        | returned i w => exact absurd hv.2 (by simp [Value.Plain, Value.isReturned])
        | error fault => rfl
        | _ => exact ih ss _ m' hss.2 hm'

end

end Exiting

/-- **A `return` in statement position is an early exit.** A program whose returns are all in statement position, run
from the start with any limits and any fuel, does what it does when returns leave the call or the program they stand in:
both runs have the same value and leave the same machine, so the same bindings and the same log, or neither ends. -/
theorem eval_eq_exiting (limits : Limits) (fuel : Nat) {p : Program} (h : Stmt.allWellPlaced true p = true) :
    Machine.initial.eval limits fuel 0 (.program p) = Exiting.evaluate limits fuel 0 p .initial :=
  Exiting.program_eq_caught limits 0 fuel p .absent .initial h Store.all_newScope

/-- Returns from branches within branches of a function that calls itself, and from the program. -/
def nestedReturns : Program := (Program.ofSource (.ofString
  "let f = fn(x) \x7b if (x > 1) \x7b if (x > 9) \x7b return 0 \x7d return x; \x7d f(x + 1) \x7d; return f(0); let f = 1;")).1

theorem eval_eq_exiting_nestedReturns : ∃ v m',
    Machine.initial.eval {} 60 0 (.program nestedReturns) = some (v, m') ∧
    Exiting.evaluate {} 60 0 nestedReturns .initial = some (v, m') := by
  have hplaced : Stmt.allWellPlaced true nestedReturns = true := by decide +kernel
  have hends : (Machine.initial.eval {} 60 0 (.program nestedReturns)).isSome = true := by decide +kernel
  obtain ⟨⟨v, m'⟩, hv⟩ := Option.isSome_iff_exists.mp hends
  exact ⟨v, m', hv, (eval_eq_exiting {} 60 hplaced).symm.trans hv⟩

end LetLang
