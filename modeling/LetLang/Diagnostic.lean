import LetLang.Token

/-!
# Diagnostics

What can be wrong with a sequence of tokens. Parsing does not stop at a diagnostic, so a text can
have several; their order is the order in which they were met.
-/

set_option autoImplicit false

namespace LetLang

/-- The three ways in which a text fails to be a program. -/
inductive Diagnostic where
  /-- A particular kind of token had to come next, and another one did. -/
  | expected (want got : Token.Kind)
  /-- An expression had to start here, and no expression starts with such a token. -/
  | noOperand (got : Token.Kind)
  /-- A number too large to be an integer of the language. -/
  | tooLarge (digits : String)
  deriving DecidableEq, Repr, Inhabited

/-- The wording of a diagnostic. Digits need no escaping, so the number stands between plain
quotation marks. -/
def Diagnostic.message : Diagnostic → String
  | .expected want got =>
    "expected next token to be " ++ want.name ++ ", got " ++ got.name ++ " instead"
  | .noOperand got => "no prefix parse function for " ++ got.name ++ " found"
  | .tooLarge digits => "could not parse \"" ++ digits ++ "\" as integer"

end LetLang
