import LetLang.Token

/-!
# Syntax trees

Statements, expressions and blocks. Every node keeps the token it was read at, because printing and
token listings show it: a literal prints as it was written, not as its value.

A tree need not come from a text that parses. Where an expression could not be read there is a hole,
`Expr.missing`; a bare `return;` has one as its operand too. Trees can also be built by hand, so an
operator is any text and a literal's text need not agree with its value. What such a tree means is for
the evaluator to say, not for the type to forbid.
-/

set_option autoImplicit false

namespace LetLang

/-- An occurrence of a name: the token it was read at and the name itself. -/
structure Ident where
  token : Token
  name : String
  deriving DecidableEq, Repr, Inhabited

mutual

/-- Expressions. A conditional without an alternative is a form of its own, so that "no alternative"
and "an empty alternative" cannot be confused. -/
inductive Expr where
  /-- A hole: nothing stands where an expression should. -/
  | missing
  | ident (name : Ident)
  | int (token : Token) (value : Int64)
  | bool (token : Token) (value : Bool)
  | unary (token : Token) (operator : String) (operand : Expr)
  | binary (token : Token) (operator : String) (left right : Expr)
  | ifThen (token : Token) (condition : Expr) (consequence : Block)
  | ifElse (token : Token) (condition : Expr) (consequence alternative : Block)
  | fn (token : Token) (params : List Ident) (body : Block)
  /-- A call; its token is the opening parenthesis. -/
  | call (token : Token) (callee : Expr) (args : List Expr)

/-- Statements. The token of an expression statement is the first token of its text. -/
inductive Stmt where
  | bind (token : Token) (name : Ident) (value : Expr)
  | ret (token : Token) (value : Expr)
  | expr (token : Token) (value : Expr)
  | block (body : Block)

/-- A list of statements in braces; its token is the opening brace. -/
inductive Block where
  | mk (token : Token) (stmts : List Stmt)

end

instance : Inhabited Expr := ⟨.missing⟩

instance : Inhabited Block := ⟨.mk default []⟩

instance : Inhabited Stmt := ⟨.block default⟩

/-- A program is the list of its top-level statements. -/
abbrev Program := List Stmt

namespace Block

/-- The opening brace. -/
def token : Block → Token
  | .mk t _ => t

/-- The statements inside the braces. -/
def stmts : Block → List Stmt
  | .mk _ ss => ss

end Block

namespace Expr

/-- Whether there is an expression at all. -/
def isPresent : Expr → Bool
  | .missing => false
  | _ => true

/-- The token an expression was read at; a hole has none. -/
def token? : Expr → Option Token
  | .missing => none
  | .ident name => some name.token
  | .int t _ | .bool t _ | .unary t _ _ | .binary t _ _ _ | .ifThen t _ _ | .ifElse t _ _ _
  | .fn t _ _ | .call t _ _ => some t

end Expr

/-- The token a statement was read at. -/
def Stmt.token : Stmt → Token
  | .bind t _ _ | .ret t _ | .expr t _ => t
  | .block b => b.token

/-- Anything that can be printed or evaluated on its own. -/
inductive Node where
  | program (stmts : Program)
  | stmt (stmt : Stmt)
  | expr (expr : Expr)
  deriving Inhabited

/-- The text of the token a node was read at; a program has that of its first statement, and an
empty program has none to show. -/
def Node.tokenText : Node → String
  | .program [] => ""
  | .program (s :: _) => s.token.literal
  | .stmt s => s.token.literal
  | .expr e => (e.token?.map Token.literal).getD ""

end LetLang
