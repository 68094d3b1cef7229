import LetLang.Machine
import LetLang.Value.Operator

/-!
# Evaluation

Trees are evaluated as they stand, operands from left to right. An error is a value, but a contagious
one: whoever computes with it hands it on, so it reaches the program's end unless nothing looks at it.
A `return` yields a marked value that blocks hand on unopened; the call that the block belongs to, or
the program, opens it. Only blocks, programs and calls treat the mark specially. Everywhere else a
returned value is a value like any other, so it can be bound to a name or meet an operator.

Calls need not end, so evaluation has fuel: every function hands on less than it was given. Its result is
`none` when the fuel did not suffice, and a value with the machine it leaves otherwise; nothing else
about it depends on the fuel.
-/

set_option autoImplicit false

namespace LetLang

/-- A computation on the machine; `none` when its fuel is used up. -/
abbrev Eval := StateT Machine Option

namespace Eval

/-- The fuel is used up. -/
def outOfFuel {α : Type} : Eval α := fun _ => none

/-- Asks whether to go on. -/
def check (limits : Limits) : Eval (Option Interrupt) := fun m => some (m.check limits.patience)

/-- The value of a name as seen from a scope. -/
def name (scope : ScopeId) (x : String) : Eval Value := fun m =>
  some ((m.store.get? scope x).getD (.error (.notFound x)), m)

/-- Gives a name a value in a scope. -/
def assign (scope : ScopeId) (x : String) (v : Value) : Eval Unit := fun m =>
  some ((), m.bind scope x v)

/-- A value that needs an identity of its own. -/
def withIdentity (make : Nat → Value) : Eval Value := fun m =>
  let (id, m) := m.takeIdentity
  some (make id, m)

/-- Whether one more call would go too deep. -/
def tooDeep (limits : Limits) : Eval Bool := fun m => some (limits.forbidsCall m.depth, m)

/-- Enters a call: one level deeper, and a new scope in which the parameters have their values. -/
def enter (outer : ScopeId) (params : List Ident) (args : List Value) : Eval ScopeId := fun m =>
  let (scope, m) := (m.enter args.length).enclose outer
  some (scope, m.bindAll scope params args)

/-- Leaves a call. -/
def leave : Eval Unit := fun m => some ((), m.leave)

/-- Notes that a statement of the program ended in an error. -/
def failed (fault : Fault) : Eval Unit := fun m => some ((), m.note (.failed fault))

/-- The values of several expressions, the first one first, when `value` gives that of each and `before` are there
already. At the first error everything else is dropped, and the error stands alone. -/
def values (value : Expr → Eval Value) : List Expr → List Value → Eval (List Value)
  | [], before => return before
  | e :: es, before => do
    let v ← value e
    if v.isError then return [v]
    values value es (before ++ [v])

/-- The error that stands alone in place of several values. -/
def failure? : List Value → Option Value
  | [v] => if v.isError then some v else none
  | _ => none

mutual

/-- The value of an expression in a scope. A hole counts as `null`. -/
def expr (limits : Limits) : Nat → ScopeId → Expr → Eval Value
  | 0, _, _ => outOfFuel
  | fuel + 1, scope, e =>
    match e with
    | .missing => return .null
    | .ident x => name scope x.name
    | .int _ n => return .int n
    | .bool _ b => return .bool b
    | .unary _ op operand => do
      let v ← expr limits fuel scope operand
      if v.isError then return v
      return v.unary op
    | .binary _ op left right => do
      let l ← expr limits fuel scope left
      if l.isError then return l
      let r ← expr limits fuel scope right
      if r.isError then return r
      return l.binary op r
    | .ifThen _ condition consequence => do
      let c ← expr limits fuel scope condition
      if c.isError then return c
      if c.isTruthy then stmts limits fuel scope consequence.stmts .absent
      else return .null
    | .ifElse _ condition consequence alternative => do
      let c ← expr limits fuel scope condition
      if c.isError then return c
      if c.isTruthy then stmts limits fuel scope consequence.stmts .absent
      else stmts limits fuel scope alternative.stmts .absent
    | .fn _ params body => withIdentity fun id => .fn id params body scope
    | .call _ callee args => do
      let f ← expr limits fuel scope callee
      if f.isError then return f
      let vs ← values (fun e => expr limits fuel scope e) args []
      match failure? vs with
      | some e => return e
      | none => apply limits fuel f vs

/-- The value of a function applied to arguments. The body runs in a scope of its own inside the one the
function was made in, and a `return` ends it. -/
def apply (limits : Limits) : Nat → Value → List Value → Eval Value
  | 0, _, _ => outOfFuel
  | fuel + 1, f, args =>
    match f with
    | .fn _ params body scope => do
      if args.length ≠ params.length then
        return .error (.argumentCount params.length args.length)
      match ← check limits with
      | some why => return .error (.cancelled why)
      | none =>
        if ← tooDeep limits then return .error (.tooDeep limits.maxDepth)
        let inner ← enter scope params args
        let v ← stmts limits fuel inner body.stmts .absent
        leave
        match v with
        | .returned _ w => return w
        | v => return v
    | f => return .error (.notAFunction f.kind)

/-- The value of a statement. A binding yields nothing. -/
def stmt (limits : Limits) : Nat → ScopeId → Stmt → Eval Value
  | 0, _, _ => outOfFuel
  | fuel + 1, scope, s =>
    match s with
    | .bind _ x e => do
      let v ← expr limits fuel scope e
      if v.isError then return v
      assign scope x.name v
      return .absent
    | .ret _ e => do
      let v ← expr limits fuel scope e
      if v.isError then return v
      withIdentity fun id => .returned id v
    | .expr _ e => expr limits fuel scope e
    | .block b => stmts limits fuel scope b.stmts .absent

/-- The value of the statements of a block, when the ones before yielded `last`: that of the last
statement, or `null` if there is nothing. An error or a returned value ends the block. -/
def stmts (limits : Limits) : Nat → ScopeId → List Stmt → Value → Eval Value
  | 0, _, _, _ => outOfFuel
  | _ + 1, _, [], last => return if last.isPresent then last else .null
  | fuel + 1, scope, s :: ss, _ => do
    match ← check limits with
    | some why => return .error (.cancelled why)
    | none =>
      match ← stmt limits fuel scope s with
      | .returned id v => return .returned id v
      | .error fault => return .error fault
      | v => stmts limits fuel scope ss v

end

/-- The value of the statements of a program, when the ones before yielded `last`. A returned value ends
it and is opened; an error ends it and is noted. Being told to stop between two statements is not an
error of a statement. -/
def program (limits : Limits) : Nat → ScopeId → Program → Value → Eval Value
  | 0, _, _, _ => outOfFuel
  | _ + 1, _, [], last => return last
  | fuel + 1, scope, s :: ss, _ => do
    match ← check limits with
    | some why => return .error (.cancelled why)
    | none =>
      match ← stmt limits fuel scope s with
      | .returned _ v => return v
      | .error fault => do
        failed fault
        return .error fault
      | v => program limits fuel scope ss v

/-- The value of a node of any sort. -/
def node (limits : Limits) (fuel : Nat) (scope : ScopeId) : Node → Eval Value
  | .program p => program limits fuel scope p .absent
  | .stmt s => stmt limits fuel scope s
  | .expr e => expr limits fuel scope e

end Eval

/-- Evaluates a node in a scope of a machine, from depth zero. -/
def Machine.eval (m : Machine) (limits : Limits) (fuel : Nat) (scope : ScopeId) (n : Node) :
    Option (Value × Machine) :=
  Eval.node limits fuel scope n { m with depth := 0 }

end LetLang
