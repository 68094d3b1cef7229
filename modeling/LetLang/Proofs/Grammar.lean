import LetLang.Tree.Parser

/-!
# The grammar

Which token sequences are programs, said without a parser. `Derives` is the grammar as a list of rules,
one constructor for each:

    Stmts = Stmt*                       Block = '{' Stmts '}'
    Stmt  = let Name '=' Expr ';'?  |  return ';'  |  return Expr ';'?  |  Expr ';'?
    Expr  = Name | Number | true | false | ('!' | '-') Expr | Expr Op Expr | '(' Expr ')'
          | if '(' Expr ')' Block (else Block)?  |  fn '(' (Name (',' Name)*)? ')' Block
          | Expr '(' (Expr (',' Expr)*)? ')'

It says nothing about precedence, and it is **ambiguous** beyond precedence too: a semicolon may be left
out, so `a -b` is two statements as well as one. What it fixes is the set of sequences alone.

`Spells` is the same list of rules with the tree that each of them builds. It relates a tree to *every* way
of writing it down, and is what the parser's results are compared with: `Spells.derives` forgets the tree.

The rules are one family indexed by what is derived, and not one relation for each phrase, so that an
induction over derivations is a single one.
-/

set_option autoImplicit false

namespace LetLang

namespace Token.Kind

/-- The eight operators that can stand between two operands. -/
def isInfix : Token.Kind → Bool
  | .equal | .notEqual | .less | .greater | .plus | .minus | .asterisk | .slash => true
  | _ => false

/-- The two operators that can stand before an operand. -/
def isSign : Token.Kind → Bool
  | .bang | .minus => true
  | _ => false

end Token.Kind

namespace Grammar

/-! ## Token sequences -/

/-- What the rules of the grammar derive. The lists have two phrases each: with the empty list, and
without it. -/
inductive Phrase where
  | stmts
  | stmt
  | semicolon?
  | block
  | expr
  | arguments
  | argumentList
  | parameters
  | parameterList

/-- The rules of the grammar. Only the kinds of tokens matter, except that a number must not exceed the
largest integer. -/
inductive Derives : Phrase → List Token → Prop where
  -- Statements
  | noStmts : Derives .stmts []
  | moreStmts {s ss : List Token} : Derives .stmt s → Derives .stmts ss → Derives .stmts (s ++ ss)
  | noSemicolon : Derives .semicolon? []
  | semicolon {t : Token} : t.kind = .semicolon → Derives .semicolon? [t]
  | bind {kw name eq : Token} {e semi : List Token} : kw.kind = .kwLet → name.kind = .ident →
      eq.kind = .assign → Derives .expr e → Derives .semicolon? semi →
      Derives .stmt (kw :: name :: eq :: (e ++ semi))
  | retNothing {kw t : Token} : kw.kind = .kwReturn → t.kind = .semicolon → Derives .stmt [kw, t]
  | ret {kw : Token} {e semi : List Token} : kw.kind = .kwReturn → Derives .expr e →
      Derives .semicolon? semi → Derives .stmt (kw :: (e ++ semi))
  | exprStmt {e semi : List Token} : Derives .expr e → Derives .semicolon? semi →
      Derives .stmt (e ++ semi)
  | block {o c : Token} {ss : List Token} : o.kind = .openBrace → Derives .stmts ss →
      c.kind = .closeBrace → Derives .block (o :: (ss ++ [c]))
  -- Expressions
  | name {t : Token} : t.kind = .ident → Derives .expr [t]
  | number {t : Token} : t.kind = .int → digitsValue t.literal ≤ maxInteger → Derives .expr [t]
  | truth {t : Token} : t.kind = .kwTrue ∨ t.kind = .kwFalse → Derives .expr [t]
  | unary {t : Token} {e : List Token} : t.kind.isSign = true → Derives .expr e →
      Derives .expr (t :: e)
  | binary {l r : List Token} {t : Token} : Derives .expr l → t.kind.isInfix = true →
      Derives .expr r → Derives .expr (l ++ t :: r)
  | group {o c : Token} {e : List Token} : o.kind = .openParen → Derives .expr e →
      c.kind = .closeParen → Derives .expr (o :: (e ++ [c]))
  | ifThen {kw o p : Token} {c b : List Token} : kw.kind = .kwIf → o.kind = .openParen →
      Derives .expr c → p.kind = .closeParen → Derives .block b →
      Derives .expr (kw :: o :: (c ++ p :: b))
  | ifElse {kw o p kw' : Token} {c b b' : List Token} : kw.kind = .kwIf → o.kind = .openParen →
      Derives .expr c → p.kind = .closeParen → Derives .block b → kw'.kind = .kwElse →
      Derives .block b' → Derives .expr (kw :: o :: (c ++ p :: (b ++ kw' :: b')))
  | fn {kw o p : Token} {xs b : List Token} : kw.kind = .kwFn → o.kind = .openParen →
      Derives .parameters xs → p.kind = .closeParen → Derives .block b →
      Derives .expr (kw :: o :: (xs ++ p :: b))
  | call {o p : Token} {f args : List Token} : Derives .expr f → o.kind = .openParen →
      Derives .arguments args → p.kind = .closeParen → Derives .expr (f ++ o :: (args ++ [p]))
  -- Lists in parentheses
  | noArguments : Derives .arguments []
  | someArguments {args : List Token} : Derives .argumentList args → Derives .arguments args
  | oneArgument {e : List Token} : Derives .expr e → Derives .argumentList e
  | moreArguments {e es : List Token} {t : Token} : Derives .expr e → t.kind = .comma →
      Derives .argumentList es → Derives .argumentList (e ++ t :: es)
  | noParameters : Derives .parameters []
  | someParameters {xs : List Token} : Derives .parameterList xs → Derives .parameters xs
  | oneParameter {x : Token} : x.kind = .ident → Derives .parameterList [x]
  | moreParameters {x t : Token} {xs : List Token} : x.kind = .ident → t.kind = .comma →
      Derives .parameterList xs → Derives .parameterList (x :: t :: xs)

/-! ## Trees and their texts -/

/-- What a text can stand for. -/
inductive Part where
  | stmts (ss : List Stmt)
  | stmt (s : Stmt)
  | block (b : Block)
  | expr (e : Expr)
  | arguments (es : List Expr)
  | parameters (xs : List Ident)

/-- The phrase a text for that part is derived from. -/
def Part.phrase : Part → Phrase
  | .stmts _ => .stmts
  | .stmt _ => .stmt
  | .block _ => .block
  | .expr _ => .expr
  | .arguments [] => .arguments
  | .arguments (_ :: _) => .argumentList
  | .parameters [] => .parameters
  | .parameters (_ :: _) => .parameterList

/-- The texts of a part: the rules of the grammar, each with the tree it builds. Nodes keep the token they
were read at; parentheses around an expression leave no trace. -/
inductive Spells : Part → List Token → Prop where
  -- Statements
  | noStmts : Spells (.stmts []) []
  | moreStmts {s : Stmt} {ss : List Stmt} {a b : List Token} : Spells (.stmt s) a →
      Spells (.stmts ss) b → Spells (.stmts (s :: ss)) (a ++ b)
  | bind {kw name eq : Token} {e : Expr} {a semi : List Token} : kw.kind = .kwLet →
      name.kind = .ident → eq.kind = .assign → Spells (.expr e) a → Derives .semicolon? semi →
      Spells (.stmt (.bind kw ⟨name, name.literal⟩ e)) (kw :: name :: eq :: (a ++ semi))
  | retNothing {kw t : Token} : kw.kind = .kwReturn → t.kind = .semicolon →
      Spells (.stmt (.ret kw .missing)) [kw, t]
  | ret {kw : Token} {e : Expr} {a semi : List Token} : kw.kind = .kwReturn →
      Spells (.expr e) a → Derives .semicolon? semi → Spells (.stmt (.ret kw e)) (kw :: (a ++ semi))
  | exprStmt {t : Token} {e : Expr} {a semi : List Token} : Spells (.expr e) (t :: a) →
      Derives .semicolon? semi → Spells (.stmt (.expr t e)) (t :: (a ++ semi))
  | block {o c : Token} {ss : List Stmt} {a : List Token} : o.kind = .openBrace →
      Spells (.stmts ss) a → c.kind = .closeBrace → Spells (.block (.mk o ss)) (o :: (a ++ [c]))
  -- Expressions
  | name {t : Token} : t.kind = .ident → Spells (.expr (.ident ⟨t, t.literal⟩)) [t]
  | number {t : Token} {n : Int64} : t.kind = .int → integer? t.literal = some n →
      Spells (.expr (.int t n)) [t]
  | truth {t : Token} {b : Bool} : t.kind = (if b then .kwTrue else .kwFalse) →
      Spells (.expr (.bool t b)) [t]
  | unary {t : Token} {e : Expr} {a : List Token} : t.kind.isSign = true → Spells (.expr e) a →
      Spells (.expr (.unary t t.literal e)) (t :: a)
  | binary {t : Token} {l r : Expr} {a b : List Token} : Spells (.expr l) a →
      t.kind.isInfix = true → Spells (.expr r) b →
      Spells (.expr (.binary t t.literal l r)) (a ++ t :: b)
  | group {o c : Token} {e : Expr} {a : List Token} : o.kind = .openParen → Spells (.expr e) a →
      c.kind = .closeParen → Spells (.expr e) (o :: (a ++ [c]))
  | ifThen {kw o p : Token} {c : Expr} {body : Block} {a b : List Token} : kw.kind = .kwIf →
      o.kind = .openParen → Spells (.expr c) a → p.kind = .closeParen → Spells (.block body) b →
      Spells (.expr (.ifThen kw c body)) (kw :: o :: (a ++ p :: b))
  | ifElse {kw o p kw' : Token} {c : Expr} {body other : Block} {a b b' : List Token} :
      kw.kind = .kwIf → o.kind = .openParen → Spells (.expr c) a → p.kind = .closeParen →
      Spells (.block body) b → kw'.kind = .kwElse → Spells (.block other) b' →
      Spells (.expr (.ifElse kw c body other)) (kw :: o :: (a ++ p :: (b ++ kw' :: b')))
  | fn {kw o p : Token} {xs : List Ident} {body : Block} {a b : List Token} : kw.kind = .kwFn →
      o.kind = .openParen → Spells (.parameters xs) a → p.kind = .closeParen →
      Spells (.block body) b → Spells (.expr (.fn kw xs body)) (kw :: o :: (a ++ p :: b))
  | call {o p : Token} {f : Expr} {args : List Expr} {a b : List Token} : Spells (.expr f) a →
      o.kind = .openParen → Spells (.arguments args) b → p.kind = .closeParen →
      Spells (.expr (.call o f args)) (a ++ o :: (b ++ [p]))
  -- Lists in parentheses
  | noArguments : Spells (.arguments []) []
  | oneArgument {e : Expr} {a : List Token} : Spells (.expr e) a → Spells (.arguments [e]) a
  | moreArguments {e e' : Expr} {es : List Expr} {t : Token} {a b : List Token} :
      Spells (.expr e) a → t.kind = .comma → Spells (.arguments (e' :: es)) b →
      Spells (.arguments (e :: e' :: es)) (a ++ t :: b)
  | noParameters : Spells (.parameters []) []
  | oneParameter {x : Token} : x.kind = .ident → Spells (.parameters [⟨x, x.literal⟩]) [x]
  | moreParameters {x t : Token} {y : Ident} {ys : List Ident} {b : List Token} :
      x.kind = .ident → t.kind = .comma → Spells (.parameters (y :: ys)) b →
      Spells (.parameters (⟨x, x.literal⟩ :: y :: ys)) (x :: t :: b)

theorem digitsValue_le_of_integer? {digits : String} {n : Int64} (h : integer? digits = some n) :
    digitsValue digits ≤ maxInteger := by
  simp only [integer?] at h
  split at h
  · next hle => exact hle
  · exact absurd h (by simp)

theorem Derives.arguments_of_phrase {es : List Expr} {a : List Token}
    (h : Derives (Part.arguments es).phrase a) : Derives .arguments a := by
  cases es with
  | nil => exact h
  | cons _ _ => exact .someArguments h

theorem Derives.parameters_of_phrase {xs : List Ident} {a : List Token}
    (h : Derives (Part.parameters xs).phrase a) : Derives .parameters a := by
  cases xs with
  | nil => exact h
  | cons _ _ => exact .someParameters h

/-- A text of a part is derivable: the rules are the same ones. -/
theorem Spells.derives {p : Part} {ts : List Token} (h : Spells p ts) : Derives p.phrase ts := by
  induction h with
  | noStmts => exact .noStmts
  | moreStmts _ _ ihs ihss => exact .moreStmts ihs ihss
  | bind hk hn he _ hs ih => exact .bind hk hn he ih hs
  | retNothing hk ht => exact .retNothing hk ht
  | ret hk _ hs ih => exact .ret hk ih hs
  | exprStmt _ hs ih => exact .exprStmt ih hs
  | block ho _ hc ih => exact .block ho ih hc
  | name ht => exact .name ht
  | number ht hn => exact .number ht (digitsValue_le_of_integer? hn)
  | @truth t b ht =>
    cases b with
    | true => exact .truth (Or.inl ht)
    | false => exact .truth (Or.inr ht)
  | unary ht _ ih => exact .unary ht ih
  | binary _ ht _ ihl ihr => exact .binary ihl ht ihr
  | group ho _ hc ih => exact .group ho ih hc
  | ifThen hk ho _ hp _ ihc ihb => exact .ifThen hk ho ihc hp ihb
  | ifElse hk ho _ hp _ hk' _ ihc ihb ihb' => exact .ifElse hk ho ihc hp ihb hk' ihb'
  | fn hk ho _ hp _ ihx ihb => exact .fn hk ho ihx.parameters_of_phrase hp ihb
  | call _ ho _ hp ihf iha => exact .call ihf ho iha.arguments_of_phrase hp
  | noArguments => exact .noArguments
  | oneArgument _ ih => exact .oneArgument ih
  | moreArguments _ ht _ ihe ihes => exact .moreArguments ihe ht ihes
  | noParameters => exact .noParameters
  | oneParameter hx => exact .oneParameter hx
  | moreParameters hx ht _ ih => exact .moreParameters hx ht ih

end Grammar

end LetLang
