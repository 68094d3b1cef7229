import LetLang.Proofs.Parser.Steps

/-!
# What the parser's functions ask for

The functions of the parser call each other, and how deep they may is bounded by fuel. To speak about the calls apart
from the fuel, each function is given here once more as a *plan*: it looks at the tokens, and either is done or asks for
another call on the tokens that are then left and goes on with its result (`Call.steps`). The plans are written as the
functions are, with the calls taken out, and `Call.run_succ` says that this is all the difference: a function with fuel
carries out its plan, with answers from the functions that have one unit less.
-/

set_option autoImplicit false

namespace LetLang.Parser

/-! ## Calls -/

/-- A call of one of the functions, apart from the tokens it is given. -/
inductive Call where
  | expression (place : Nat)
  | expressionFrom (place : Nat) (t : Token)
  | operand (t : Token) (form : OperandForm)
  | operators (place : Nat) (left : Expr)
  | callFrom (t : Token) (callee : Expr)
  | moreArguments
  | parameters
  | moreParameters
  | blockFrom (brace : Token)
  | statementsToBrace
  | statementFrom (t : Token)
  | statementsToEnd

/-- What the value of a call is. -/
@[reducible]
def Call.Result : Call → Type
  | .expression _ | .expressionFrom _ _ | .operand _ _ | .operators _ _ | .callFrom _ _ => Expr
  | .moreArguments => List Expr
  | .parameters | .moreParameters => Option (List Ident)
  | .blockFrom _ => Block
  | .statementsToBrace => List Stmt
  | .statementFrom _ => Option Stmt
  | .statementsToEnd => Program

/-- The function that is called. Lists of parameters are read without fuel. -/
def Call.run (fuel : Nat) : (c : Call) → Parser c.Result
  | .expression place => Parser.expression fuel place
  | .expressionFrom place t => Parser.expressionFrom fuel place t
  | .operand t form => Parser.operand fuel t form
  | .operators place left => Parser.operators fuel place left
  | .callFrom t callee => Parser.callFrom fuel t callee
  | .moreArguments => Parser.moreArguments fuel
  | .parameters => Parser.parameters
  | .moreParameters => fun ts => some (Parser.moreParameters ts)
  | .blockFrom brace => Parser.blockFrom fuel brace
  | .statementsToBrace => Parser.statementsToBrace fuel
  | .statementFrom t => Parser.statementFrom fuel t
  | .statementsToEnd => Parser.statementsToEnd fuel

/-! ## Plans -/

/-- What is done with some tokens: an outcome, or a call whose result is needed to go on. -/
inductive Plan (α : Type) where
  | done (outcome : Option (Parsed α))
  | ask (c : Call) (ts : List Token) (next : Parsed c.Result → Plan α)

namespace Plan

variable {α β : Type}

/-- Goes on with the result of a plan. -/
def andThen : Plan α → (Parsed α → Plan β) → Plan β
  | .done none, _ => .done none
  | .done (some r), f => f r
  | .ask c ts next, f => .ask c ts fun r => (next r).andThen f

/-- The outcome of a plan, if these are the answers to what it asks for. -/
def exec (answer : (c : Call) → Parser c.Result) : Plan α → Option (Parsed α)
  | .done outcome => outcome
  | .ask c ts next => (answer c ts).bind fun r => (next r).exec answer

theorem exec_andThen (answer : (c : Call) → Parser c.Result) (p : Plan α) (f : Parsed α → Plan β) :
    (p.andThen f).exec answer = (p.exec answer).bind fun r => (f r).exec answer := by
  induction p with
  | done outcome => cases outcome <;> rfl
  | ask c ts next ih =>
    simp only [andThen, exec, Option.bind_assoc]
    congr 1
    funext r
    exact ih r

end Plan

/-- Steps of parsing that may ask for calls: a plan for all tokens. -/
def Steps (α : Type) : Type := List Token → Plan α

namespace Steps

variable {α β : Type}

/-- Steps that ask for nothing. -/
def lift (p : Parser α) : Steps α := fun ts => .done (p ts)

/-- Asks for a call and hands on its result. -/
def call (c : Call) : Steps c.Result := fun ts => .ask c ts fun r => .done (some r)

/-- One after the other, with the diagnostics of both. -/
protected def bind (x : Steps α) (f : α → Steps β) : Steps β := fun ts =>
  (x ts).andThen fun a => (f a.value a.rest).andThen fun b =>
    .done (some ⟨b.value, a.diagnostics ++ b.diagnostics, b.rest⟩)

instance : Monad Steps where
  pure a := lift (pure a)
  bind := Steps.bind

/-- Takes the next token, which must have the kind `k`, and goes on with it; see `Parser.expecting`. -/
def expecting (k : Token.Kind) (otherwise : α) (next : Token → Steps α) : Steps α := fun ts =>
  match ts with
  | [] => .done (some ⟨otherwise, [.expected k .endOfInput], []⟩)
  | t :: rest =>
    if t.kind = k then next t rest
    else .done (some ⟨otherwise, [.expected k t.kind], t :: rest⟩)

end Steps

/-! ## The plans of the functions -/

namespace Call

open Steps

def stepsOperand (t : Token) : OperandForm → Steps Expr
  | .name => pure (.ident ⟨t, t.literal⟩)
  | .number =>
    match integer? t.literal with
    | some n => pure (.int t n)
    | none => lift (report (.tooLarge t.literal) .missing)
  | .truth b => pure (.bool t b)
  | .signed => do
    let e ← call (.expression Binding.sign)
    return .unary t t.literal e
  | .group => do
    let e ← call (.expression Binding.lowest)
    Steps.expecting .closeParen .missing fun _ => pure e
  | .conditional =>
    Steps.expecting .openParen .missing fun _ => do
      let c ← call (.expression Binding.lowest)
      Steps.expecting .closeParen .missing fun _ =>
        Steps.expecting .openBrace .missing fun brace => do
          let body ← call (.blockFrom brace)
          match ← lift (take? .kwElse) with
          | none => return .ifThen t c body
          | some _ =>
            Steps.expecting .openBrace .missing fun brace' => do
              let other ← call (.blockFrom brace')
              return .ifElse t c body other
  | .function =>
    Steps.expecting .openParen .missing fun _ => do
      match ← call .parameters with
      | none => return .missing
      | some params =>
        Steps.expecting .openBrace .missing fun brace => do
          let body ← call (.blockFrom brace)
          return .fn t params body

def stepsOperators (place : Nat) (left : Expr) : Steps Expr := do
  match ← lift peek? with
  | none => return left
  | some t =>
    if place < t.kind.binding then
      let _ ← lift token?
      if t.kind = .openParen then
        let e ← call (.callFrom t left)
        call (.operators place e)
      else
        let right ← call (.expression t.kind.binding)
        call (.operators place (.binary t t.literal left right))
    else return left

def stepsParameters : Steps (Option (List Ident))
  | ⟨.closeParen, _⟩ :: ts => .done (some ⟨some [], [], ts⟩)
  | ⟨.ident, name⟩ :: ts => .ask .moreParameters ts fun more =>
    .done (some ⟨more.value.map (⟨⟨.ident, name⟩, name⟩ :: ·), more.diagnostics, more.rest⟩)
  | ts => .done (some ⟨none, [.expected .ident (kindAhead ts)], ts⟩)

def stepsMoreParameters : Steps (Option (List Ident))
  | ⟨.comma, _⟩ :: ⟨.ident, name⟩ :: ts => .ask .moreParameters ts fun more =>
    .done (some ⟨more.value.map (⟨⟨.ident, name⟩, name⟩ :: ·), more.diagnostics, more.rest⟩)
  | ⟨.comma, _⟩ :: ts => .done (some ⟨none, [.expected .ident (kindAhead ts)], ts⟩)
  | ⟨.closeParen, _⟩ :: ts => .done (some ⟨some [], [], ts⟩)
  | ts => .done (some ⟨none, [.expected .closeParen (kindAhead ts)], ts⟩)

def stepsStatementFrom (t : Token) : Steps (Option Stmt) :=
  match t.kind with
  | .kwLet =>
    Steps.expecting .ident none fun name =>
      Steps.expecting .assign none fun _ => do
        let e ← call (.expression Binding.lowest)
        let _ ← lift (take? .semicolon)
        return some (.bind t ⟨name, name.literal⟩ e)
  | .kwReturn => do
    match ← lift (take? .semicolon) with
    | some _ => return some (.ret t .missing)
    | none =>
      let e ← call (.expression Binding.lowest)
      let _ ← lift (take? .semicolon)
      return some (.ret t e)
  | _ => do
    let e ← call (.expressionFrom Binding.lowest t)
    let _ ← lift (take? .semicolon)
    return some (.expr t e)

/-- The plan of a call. -/
def steps : (c : Call) → Steps c.Result
  | .expression place => do
    match ← lift token? with
    | none => lift (report (.noOperand .endOfInput) .missing)
    | some t => call (.expressionFrom place t)
  | .expressionFrom place t =>
    match t.kind.operandForm? with
    | none => lift (report (.noOperand t.kind) .missing)
    | some form => do
      let left ← call (.operand t form)
      call (.operators place left)
  | .operand t form => stepsOperand t form
  | .operators place left => stepsOperators place left
  | .callFrom t callee => do
    match ← lift (take? .closeParen) with
    | some _ => return .call t callee []
    | none =>
      let first ← call (.expression Binding.lowest)
      let more ← call .moreArguments
      Steps.expecting .closeParen .missing fun _ =>
        pure (.call t callee ((first :: more).filter Expr.isPresent))
  | .moreArguments => do
    match ← lift (take? .comma) with
    | none => return []
    | some _ =>
      let e ← call (.expression Binding.lowest)
      let more ← call .moreArguments
      return e :: more
  | .parameters => stepsParameters
  | .moreParameters => stepsMoreParameters
  | .blockFrom brace => do
    let ss ← call .statementsToBrace
    return .mk brace ss
  | .statementsToBrace => do
    match ← lift token? with
    | none => lift (report (.expected .closeBrace .endOfInput) [])
    | some t =>
      if t.kind = .closeBrace then return []
      else
        let s ← call (.statementFrom t)
        let ss ← call .statementsToBrace
        return s.toList ++ ss
  | .statementFrom t => stepsStatementFrom t
  | .statementsToEnd => do
    match ← lift token? with
    | none => return []
    | some t =>
      let s ← call (.statementFrom t)
      let ss ← call .statementsToEnd
      return s.toList ++ ss

end Call

/-! ## Carrying out the plans -/

section
variable {α β : Type} {answer : (c : Call) → Parser c.Result}

/-- With these answers the plans of the steps come to what the parser gives. -/
def Follows (answer : (c : Call) → Parser c.Result) (x : Steps α) (p : Parser α) : Prop :=
  ∀ ts, (x ts).exec answer = p ts

theorem follows_lift (p : Parser α) : Follows answer (.lift p) p := fun _ => rfl

theorem follows_pure (a : α) : Follows answer (pure a) (pure a) := fun _ => rfl

theorem follows_call (c : Call) : Follows answer (.call c) (answer c) := by
  intro ts
  show ((answer c ts).bind fun r => some r) = answer c ts
  rw [Option.bind_fun_some]

theorem Follows.bind {x : Steps α} {p : Parser α} {f : α → Steps β} {g : α → Parser β} (hx : Follows answer x p)
    (hf : ∀ a, Follows answer (f a) (g a)) : Follows answer (x >>= f) (p >>= g) := by
  intro ts
  show Plan.exec answer (Steps.bind x f ts) = Parser.bind p g ts
  simp only [Steps.bind, Parser.bind, Plan.exec_andThen, hx ts]
  cases p ts with
  | none => rfl
  | some a =>
    simp only [Option.bind_some, hf a.value a.rest]
    cases g a.value a.rest <;> rfl

theorem follows_expecting {k : Token.Kind} {o : α} {f : Token → Steps α} {g : Token → Parser α}
    (hf : ∀ t, Follows answer (f t) (g t)) : Follows answer (.expecting k o f) (expecting k o g) := by
  intro ts
  cases ts with
  | nil => rfl
  | cons t rest =>
    simp only [Steps.expecting, expecting]
    split
    · exact hf t rest
    · rfl

end

namespace Call

variable {fuel : Nat}

theorem follows_operand (t : Token) (form : OperandForm) :
    Follows (run fuel) (stepsOperand t form) (Parser.operand (fuel + 1) t form) := by
  cases form with
  | name | truth b => exact follows_pure _
  | number =>
    simp only [stepsOperand, Parser.operand]
    cases integer? t.literal with
    | none => exact follows_lift _
    | some n => exact follows_pure _
  | signed => exact (follows_call (.expression _)).bind fun e => follows_pure _
  | group => exact (follows_call (.expression _)).bind fun e => follows_expecting fun _ => follows_pure _
  | conditional =>
    refine follows_expecting fun _ => (follows_call (.expression _)).bind fun c => ?_
    refine follows_expecting fun _ => follows_expecting fun brace => ?_
    refine (follows_call (.blockFrom brace)).bind fun body => (follows_lift _).bind fun kw => ?_
    cases kw with
    | none => exact follows_pure _
    | some _ =>
      exact follows_expecting fun brace' => (follows_call (.blockFrom brace')).bind fun other => follows_pure _
  | function =>
    refine follows_expecting fun _ => (follows_call .parameters).bind fun params => ?_
    cases params with
    | none => exact follows_pure _
    | some params =>
      exact follows_expecting fun brace => (follows_call (.blockFrom brace)).bind fun body => follows_pure _

theorem follows_operators (place : Nat) (left : Expr) :
    Follows (run fuel) (stepsOperators place left) (Parser.operators (fuel + 1) place left) := by
  refine (follows_lift _).bind fun next => ?_
  cases next with
  | none => exact follows_pure _
  | some t =>
    dsimp only
    split
    · refine (follows_lift _).bind fun _ => ?_
      split
      · exact (follows_call (.callFrom t left)).bind fun e => follows_call (.operators place e)
      · exact (follows_call (.expression _)).bind fun right => follows_call (.operators place _)
    · exact follows_pure _

theorem follows_parameters : Follows (run fuel) stepsParameters Parser.parameters := by
  intro ts
  fun_cases Parser.parameters ts with
  | case1 lit ts => rfl
  | case2 name ts more => rfl
  | case3 ts h h' =>
    rw [stepsParameters]
    · rfl
    · exact h
    · exact h'

theorem follows_moreParameters :
    Follows (run fuel) stepsMoreParameters (fun ts => some (Parser.moreParameters ts)) := by
  intro ts
  fun_cases Parser.moreParameters ts with
  | case1 c name ts more => rfl
  | case2 c ts h => simp [stepsMoreParameters, Parser.moreParameters, Plan.exec]
  | case3 c ts => rfl
  | case4 ts h h' h'' => simp [stepsMoreParameters, Parser.moreParameters, Plan.exec]

theorem follows_statementFrom (t : Token) :
    Follows (run fuel) (stepsStatementFrom t) (Parser.statementFrom (fuel + 1) t) := by
  simp only [stepsStatementFrom, Parser.statementFrom]
  generalize t.kind = kind
  cases kind with
  | kwLet =>
    exact follows_expecting fun name => follows_expecting fun _ =>
      (follows_call (.expression _)).bind fun e => (follows_lift _).bind fun _ => follows_pure _
  | kwReturn =>
    refine (follows_lift _).bind fun semi => ?_
    cases semi with
    | none => exact (follows_call (.expression _)).bind fun e => (follows_lift _).bind fun _ => follows_pure _
    | some _ => exact follows_pure _
  | _ => exact (follows_call (.expressionFrom _ t)).bind fun e => (follows_lift _).bind fun _ => follows_pure _

/-- **A function with fuel carries out its plan**, with one unit less for all that it asks for. -/
theorem run_succ (c : Call) : Follows (run fuel) c.steps (c.run (fuel + 1)) := by
  cases c with
  | expression place =>
    refine (follows_lift _).bind fun next => ?_
    cases next with
    | none => exact follows_lift _
    | some t => exact follows_call (.expressionFrom place t)
  | expressionFrom place t =>
    simp only [steps, run, Parser.expressionFrom]
    cases t.kind.operandForm? with
    | none => exact follows_lift _
    | some form => exact (follows_call (.operand t form)).bind fun left => follows_call (.operators place left)
  | operand t form => exact follows_operand t form
  | operators place left => exact follows_operators place left
  | callFrom t callee =>
    refine (follows_lift _).bind fun close => ?_
    cases close with
    | some _ => exact follows_pure _
    | none =>
      exact (follows_call (.expression _)).bind fun first => (follows_call .moreArguments).bind fun more =>
        follows_expecting fun _ => follows_pure _
  | moreArguments =>
    refine (follows_lift _).bind fun comma => ?_
    cases comma with
    | none => exact follows_pure _
    | some _ =>
      exact (follows_call (.expression _)).bind fun e => (follows_call .moreArguments).bind fun more => follows_pure _
  | parameters => exact follows_parameters
  | moreParameters => exact follows_moreParameters
  | blockFrom brace => exact (follows_call .statementsToBrace).bind fun ss => follows_pure _
  | statementsToBrace =>
    refine (follows_lift _).bind fun next => ?_
    cases next with
    | none => exact follows_lift _
    | some t =>
      dsimp only
      split
      · exact follows_pure _
      · exact (follows_call (.statementFrom t)).bind fun s => (follows_call .statementsToBrace).bind fun ss =>
          follows_pure _
  | statementFrom t => exact follows_statementFrom t
  | statementsToEnd =>
    refine (follows_lift _).bind fun next => ?_
    cases next with
    | none => exact follows_pure _
    | some t =>
      exact (follows_call (.statementFrom t)).bind fun s => (follows_call .statementsToEnd).bind fun ss =>
        follows_pure _

end Call

end LetLang.Parser
