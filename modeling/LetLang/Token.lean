/-!
# Tokens

The vocabulary of the language. A token is a *kind* and the text it was read from; the kind alone
decides how the token is parsed, and its display name is what diagnostics and token listings print.

Words and numbers carry their text because it matters later (a name, a value); for operators and
delimiters the text is determined by the kind, and is kept so that every token prints the same way.
-/

set_option autoImplicit false

namespace LetLang

namespace Token

/-- The classes of tokens: two open classes (`ident`, `int`), the operators and delimiters, the
seven keywords, and two marks for what is not a token of the language (`illegal`) and for the end
of the text. -/
inductive Kind where
  | illegal
  | endOfInput
  | ident
  | int
  | assign
  | plus
  | minus
  | bang
  | asterisk
  | slash
  | less
  | greater
  | equal
  | notEqual
  | comma
  | semicolon
  | openParen
  | closeParen
  | openBrace
  | closeBrace
  | kwFn
  | kwLet
  | kwTrue
  | kwFalse
  | kwIf
  | kwElse
  | kwReturn
  deriving DecidableEq, Repr, Inhabited

/-- The display name of a kind: the symbol itself for operators and delimiters, a word in capitals
for everything else. -/
def Kind.name : Kind → String
  | .illegal => "ILLEGAL"
  | .endOfInput => "EOF"
  | .ident => "IDENT"
  | .int => "INT"
  | .assign => "="
  | .plus => "+"
  | .minus => "-"
  | .bang => "!"
  | .asterisk => "*"
  | .slash => "/"
  | .less => "<"
  | .greater => ">"
  | .equal => "=="
  | .notEqual => "!="
  | .comma => ","
  | .semicolon => ";"
  | .openParen => "("
  | .closeParen => ")"
  | .openBrace => "\x7b"
  | .closeBrace => "\x7d"
  | .kwFn => "FUNCTION"
  | .kwLet => "LET"
  | .kwTrue => "TRUE"
  | .kwFalse => "FALSE"
  | .kwIf => "IF"
  | .kwElse => "ELSE"
  | .kwReturn => "RETURN"

/-- The kinds whose text is their own display name. -/
def symbols : List Kind :=
  [.assign, .plus, .minus, .bang, .asterisk, .slash, .less, .greater, .equal, .notEqual,
    .comma, .semicolon, .openParen, .closeParen, .openBrace, .closeBrace]

/-- The reserved words and the kinds they stand for. -/
def keywords : List (String × Kind) :=
  [("fn", .kwFn), ("let", .kwLet), ("true", .kwTrue), ("false", .kwFalse), ("if", .kwIf),
    ("else", .kwElse), ("return", .kwReturn)]

/-- The kind of a word: reserved words have one of their own, all others are names. -/
def Kind.ofWord (word : String) : Kind :=
  (keywords.lookup word).getD .ident

/-- The kind of a symbol; a text that is no symbol of the language is illegal. -/
def Kind.ofSymbol (text : String) : Kind :=
  (symbols.find? fun k => k.name == text).getD .illegal

end Token

/-- A token: its kind and the text it was read from. -/
structure Token where
  kind : Token.Kind
  literal : String
  deriving DecidableEq, Repr, Inhabited

/-- The mark for the end of the text. -/
def Token.endOfInput : Token := ⟨.endOfInput, ""⟩

end LetLang
