import LetLang.Diagnostic

/-!
# Parsing steps

A parsing step takes the tokens that are left and gives a value, the diagnostics it met and the tokens
it leaves. It always gives a value: what could not be read is reported and replaced. The only other
outcome is `none`, for a step whose fuel was too small for its input; it is kept apart from every
answer so that "gave up counting" is never mistaken for "found nothing".

Steps compose in sequence, and their diagnostics are then simply appended. A step never looks further
ahead than one token, and whether it *takes* a token is its whole effect on what follows:

* a token that is expected and found is taken;
* a token that was expected and not found stays where it is, so the next statement starts with it.
-/

set_option autoImplicit false

namespace LetLang

/-- What a parsing step hands on. -/
structure Parsed (α : Type) where
  value : α
  diagnostics : List Diagnostic
  rest : List Token
  deriving Repr

/-- A parsing step; `none` only when its fuel is used up. -/
def Parser (α : Type) : Type := List Token → Option (Parsed α)

namespace Parser

/-- Takes no token and reports nothing. -/
protected def pure {α : Type} (a : α) : Parser α := fun ts => some ⟨a, [], ts⟩

/-- One step after another; diagnostics in the order in which they are met. -/
protected def bind {α β : Type} (p : Parser α) (f : α → Parser β) : Parser β := fun ts =>
  match p ts with
  | none => none
  | some a =>
    match f a.value a.rest with
    | none => none
    | some b => some ⟨b.value, a.diagnostics ++ b.diagnostics, b.rest⟩

instance : Monad Parser where
  pure := Parser.pure
  bind := Parser.bind

/-- The fuel is used up. -/
def outOfFuel {α : Type} : Parser α := fun _ => none

/-- Reports a diagnostic and goes on with the value `a`. -/
def report {α : Type} (d : Diagnostic) (a : α) : Parser α := fun ts => some ⟨a, [d], ts⟩

/-- Takes the next token, or notes that there is none. -/
def token? : Parser (Option Token)
  | [] => some ⟨none, [], []⟩
  | t :: ts => some ⟨some t, [], ts⟩

/-- Looks at the next token without taking it. -/
def peek? : Parser (Option Token) := fun ts => some ⟨ts.head?, [], ts⟩

/-- Takes the next token if it has the kind `k`. -/
def take? (k : Token.Kind) : Parser (Option Token)
  | [] => some ⟨none, [], []⟩
  | t :: ts => if t.kind = k then some ⟨some t, [], ts⟩ else some ⟨none, [], t :: ts⟩

/-- The kind of the next token; past the last one stands the end mark. -/
def kindAhead : List Token → Token.Kind
  | [] => .endOfInput
  | t :: _ => t.kind

/-- Takes the next token, which must have the kind `k`, and goes on with it. Any other token is
reported and left in place, and the value is `otherwise`. -/
def expecting {α : Type} (k : Token.Kind) (otherwise : α) (next : Token → Parser α) :
    Parser α := fun ts =>
  match ts with
  | [] => some ⟨otherwise, [.expected k .endOfInput], []⟩
  | t :: rest =>
    if t.kind = k then next t rest else some ⟨otherwise, [.expected k t.kind], t :: rest⟩

end Parser

end LetLang
