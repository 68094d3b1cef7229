import LetLang.Token.Lexer
import LetLang.Tree
import LetLang.Parser

/-!
# From tokens to trees

Expressions are read by binding power: an operand first, then every following operator that binds
tighter than the place the expression stands in. Giving the right operand the operator's own power as
its place makes chains of equal operators group to the left.

Nothing stops the parser. What it expected and did not find it reports, and the expression or statement
concerned is dropped or left as a hole; reading goes on at the token that was not expected. A token that
can start no expression is reported and passed over. So each statement takes at least one token, and the
fuel, which only bounds the nesting of calls, can be computed from the number of tokens (`fuelFor`).

The functions that read an operand or a statement are given its first token, which the caller has taken
already: none of them can be asked to read where there is nothing.
-/

set_option autoImplicit false

namespace LetLang

namespace Binding

/-- The place of an expression that nothing binds: every operator may follow. -/
def lowest : Nat := 0

/-- Binding power of `==` and `!=`. -/
def equality : Nat := 1

/-- Binding power of `<` and `>`. -/
def comparison : Nat := 2

/-- Binding power of `+` and `-` between operands. -/
def sum : Nat := 3

/-- Binding power of `*` and `/`. -/
def product : Nat := 4

/-- Binding power of `-` and `!` before an operand. -/
def sign : Nat := 5

/-- Binding power of the parenthesis that opens a call. -/
def call : Nat := 6

end Binding

namespace Token.Kind

/-- How tightly a token binds the operand before it. Tokens that are no operators do not bind at all. -/
def binding : Token.Kind → Nat
  | .equal | .notEqual => Binding.equality
  | .less | .greater => Binding.comparison
  | .plus | .minus => Binding.sum
  | .asterisk | .slash => Binding.product
  | .openParen => Binding.call
  | _ => Binding.lowest

end Token.Kind

/-- The forms an operand can have, told apart by its first token. -/
inductive OperandForm where
  | name
  | number
  | truth (value : Bool)
  | signed
  | group
  | conditional
  | function
  deriving DecidableEq, Repr

/-- The form of the operand that starts with a token of this kind, if any does. -/
def Token.Kind.operandForm? : Token.Kind → Option OperandForm
  | .ident => some .name
  | .int => some .number
  | .kwTrue => some (.truth true)
  | .kwFalse => some (.truth false)
  | .bang | .minus => some .signed
  | .openParen => some .group
  | .kwIf => some .conditional
  | .kwFn => some .function
  | _ => none

/-- The number a string of decimal digits denotes. -/
def digitsValue (digits : String) : Nat :=
  digits.toList.foldl (fun n c => 10 * n + (c.toNat - 48)) 0

/-- The largest integer. -/
def maxInteger : Nat := 9223372036854775807

/-- The integer a digit string denotes, unless it is too large to be one. -/
def integer? (digits : String) : Option Int64 :=
  let n := digitsValue digits
  if n ≤ maxInteger then some (Int64.ofNat n) else none

namespace Parser

/-- The rest of a parameter list after one of its names: further names, each after a comma, up to and
with the closing parenthesis. -/
def moreParameters : List Token → Parsed (Option (List Ident))
  | ⟨.comma, _⟩ :: ⟨.ident, name⟩ :: ts =>
    let more := moreParameters ts
    ⟨more.value.map (⟨⟨.ident, name⟩, name⟩ :: ·), more.diagnostics, more.rest⟩
  | ⟨.comma, _⟩ :: ts => ⟨none, [.expected .ident (kindAhead ts)], ts⟩
  | ⟨.closeParen, _⟩ :: ts => ⟨some [], [], ts⟩
  | ts => ⟨none, [.expected .closeParen (kindAhead ts)], ts⟩

/-- A parameter list after its opening parenthesis, up to and with the closing one. A list that is not
well formed is no list at all. -/
def parameters : Parser (Option (List Ident))
  | ⟨.closeParen, _⟩ :: ts => some ⟨some [], [], ts⟩
  | ⟨.ident, name⟩ :: ts =>
    let more := moreParameters ts
    some ⟨more.value.map (⟨⟨.ident, name⟩, name⟩ :: ·), more.diagnostics, more.rest⟩
  | ts => some ⟨none, [.expected .ident (kindAhead ts)], ts⟩

mutual

/-- An expression in a place of the given binding power. -/
def expression : Nat → Nat → Parser Expr
  | 0, _ => outOfFuel
  | fuel + 1, place => do
    match ← token? with
    | none => report (.noOperand .endOfInput) .missing
    | some t => expressionFrom fuel place t

/-- An expression whose first token is `t`. A token that can start none is passed over, and nothing
that follows it is taken for an operator. -/
def expressionFrom : Nat → Nat → Token → Parser Expr
  | 0, _, _ => outOfFuel
  | fuel + 1, place, t =>
    match t.kind.operandForm? with
    | none => report (.noOperand t.kind) .missing
    | some form => do
      let left ← operand fuel t form
      operators fuel place left

/-- An operand of the given form whose first token is `t`. -/
def operand : Nat → Token → OperandForm → Parser Expr
  | 0, _, _ => outOfFuel
  | fuel + 1, t, form =>
    match form with
    | .name => pure (.ident ⟨t, t.literal⟩)
    | .number =>
      match integer? t.literal with
      | some n => pure (.int t n)
      | none => report (.tooLarge t.literal) .missing
    | .truth b => pure (.bool t b)
    | .signed => do
      let e ← expression fuel Binding.sign
      return .unary t t.literal e
    | .group => do
      let e ← expression fuel Binding.lowest
      expecting .closeParen .missing fun _ => pure e
    | .conditional =>
      expecting .openParen .missing fun _ => do
        let c ← expression fuel Binding.lowest
        expecting .closeParen .missing fun _ =>
          expecting .openBrace .missing fun brace => do
            let body ← blockFrom fuel brace
            match ← take? .kwElse with
            | none => return .ifThen t c body
            | some _ =>
              expecting .openBrace .missing fun brace' => do
                let other ← blockFrom fuel brace'
                return .ifElse t c body other
    | .function =>
      expecting .openParen .missing fun _ => do
        match ← parameters with
        | none => return .missing
        | some params =>
          expecting .openBrace .missing fun brace => do
            let body ← blockFrom fuel brace
            return .fn t params body

/-- The operators that follow the operand `left` and bind tighter than its place, each with what
belongs to it. An operator can follow a hole. -/
def operators : Nat → Nat → Expr → Parser Expr
  | 0, _, _ => outOfFuel
  | fuel + 1, place, left => do
    match ← peek? with
    | none => return left
    | some t =>
      if place < t.kind.binding then
        let _ ← token?
        if t.kind = .openParen then
          let e ← callFrom fuel t left
          operators fuel place e
        else
          let right ← expression fuel t.kind.binding
          operators fuel place (.binary t t.literal left right)
      else return left

/-- A call of `callee` after its opening parenthesis `t`. Arguments that could not be read are left
out; a call that does not close is no call. -/
def callFrom : Nat → Token → Expr → Parser Expr
  | 0, _, _ => outOfFuel
  | fuel + 1, t, callee => do
    match ← take? .closeParen with
    | some _ => return .call t callee []
    | none =>
      let first ← expression fuel Binding.lowest
      let more ← moreArguments fuel
      expecting .closeParen .missing fun _ =>
        pure (.call t callee ((first :: more).filter Expr.isPresent))

/-- The arguments after the first, each after a comma. -/
def moreArguments : Nat → Parser (List Expr)
  | 0 => outOfFuel
  | fuel + 1 => do
    match ← take? .comma with
    | none => return []
    | some _ =>
      let e ← expression fuel Binding.lowest
      let more ← moreArguments fuel
      return e :: more

/-- A block after its opening brace. -/
def blockFrom : Nat → Token → Parser Block
  | 0, _ => outOfFuel
  | fuel + 1, brace => do
    let ss ← statementsToBrace fuel
    return .mk brace ss

/-- Statements up to and with the closing brace. A block that the text ends in is reported and kept as
far as it goes. -/
def statementsToBrace : Nat → Parser (List Stmt)
  | 0 => outOfFuel
  | fuel + 1 => do
    match ← token? with
    | none => report (.expected .closeBrace .endOfInput) []
    | some t =>
      if t.kind = .closeBrace then return []
      else
        let s ← statementFrom fuel t
        let ss ← statementsToBrace fuel
        return s.toList ++ ss

/-- A statement whose first token is `t`. A binding without its name or its `=` is no statement. The
semicolon at the end may be missing. -/
def statementFrom : Nat → Token → Parser (Option Stmt)
  | 0, _ => outOfFuel
  | fuel + 1, t =>
    match t.kind with
    | .kwLet =>
      expecting .ident none fun name =>
        expecting .assign none fun _ => do
          let e ← expression fuel Binding.lowest
          let _ ← take? .semicolon
          return some (.bind t ⟨name, name.literal⟩ e)
    | .kwReturn => do
      match ← take? .semicolon with
      | some _ => return some (.ret t .missing)
      | none =>
        let e ← expression fuel Binding.lowest
        let _ ← take? .semicolon
        return some (.ret t e)
    | _ => do
      let e ← expressionFrom fuel Binding.lowest t
      let _ ← take? .semicolon
      return some (.expr t e)

end

/-- Statements to the end of the tokens. -/
def statementsToEnd : Nat → Parser Program
  | 0 => outOfFuel
  | fuel + 1 => do
    match ← token? with
    | none => return []
    | some t =>
      let s ← statementFrom fuel t
      let ss ← statementsToEnd fuel
      return s.toList ++ ss

end Parser

/-- Fuel for that many tokens: between one token taken and the next, calls nest at most five deep. -/
def Program.fuelFor (ts : List Token) : Nat := 5 * ts.length + 5

/-- Reads a token sequence as a program, with the diagnostics met on the way. The program is partial
when there are any. -/
def Program.parse (ts : List Token) : Program × List Diagnostic :=
  match Parser.statementsToEnd (fuelFor ts) ts with
  | some ⟨p, ds, _⟩ => (p, ds)
  -- not reached: the fuel suffices for every sequence of that length
  | none => ([], [])

/-- Reads a source text as a program. -/
def Program.ofSource (src : Source) : Program × List Diagnostic :=
  Program.parse src.tokens

end LetLang
