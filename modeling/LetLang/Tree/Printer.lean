import LetLang.Tree

/-!
# Printing trees

One text per tree, with every operator application in parentheses, so that the text shows how the
tree is grouped. Braces are not printed: a block is the concatenation of its statements. A hole prints
as nothing. Names and operators print as the node has them; keywords and literals as they were written.
-/

set_option autoImplicit false

namespace LetLang

/-- Names between commas. -/
def Ident.list (names : List Ident) : String :=
  ", ".intercalate (names.map Ident.name)

mutual

/-- The printed form of an expression. -/
def Expr.text : Expr → String
  | .missing => ""
  | .ident x => x.name
  | .int t _ => t.literal
  | .bool t _ => t.literal
  | .unary _ op e => "(" ++ op ++ e.text ++ ")"
  | .binary _ op l r => "(" ++ l.text ++ " " ++ op ++ " " ++ r.text ++ ")"
  | .ifThen _ c b => "if" ++ c.text ++ " " ++ b.text
  | .ifElse _ c b a => "if" ++ c.text ++ " " ++ b.text ++ "else " ++ a.text
  | .fn t params b => t.literal ++ "(" ++ Ident.list params ++ ") " ++ b.text
  | .call _ f args => f.text ++ "(" ++ ", ".intercalate (Expr.texts args) ++ ")"

/-- The printed forms of several expressions. -/
def Expr.texts : List Expr → List String
  | [] => []
  | e :: es => e.text :: Expr.texts es

/-- The printed form of a statement. -/
def Stmt.text : Stmt → String
  | .bind t x e => t.literal ++ " " ++ x.name ++ " = " ++ e.text ++ ";"
  | .ret t e => t.literal ++ " " ++ e.text ++ ";"
  | .expr _ e => e.text
  | .block b => b.text

/-- The printed form of a block. -/
def Block.text : Block → String
  | .mk _ ss => Stmt.concatText ss

/-- Statements printed one after the other, with nothing between them. -/
def Stmt.concatText : List Stmt → String
  | [] => ""
  | s :: ss => s.text ++ Stmt.concatText ss

end

/-- The printed form of a program. -/
def Program.text (p : Program) : String := Stmt.concatText p

/-- The printed form of a node. -/
def Node.text : Node → String
  | .program p => Program.text p
  | .stmt s => s.text
  | .expr e => e.text

end LetLang
