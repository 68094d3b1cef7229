import LetLang.Proofs.Grammar
import LetLang.Proofs.Token.Separation

/-!
# Writing trees down

The token sequences that a tree may be written as. `Spells` relates a tree to every text that the grammar
allows for it, and there an infix operator may stand anywhere: `a * b + c` is a text of two trees. Here
parentheses are an obligation. `Position.needsParens` says which expressions must not stand bare in which
place, in the terms of the usual table of **precedences** and of nothing else; a rendering may add as many
further pairs as it likes.

A rendering ends every statement with a semicolon. What can be rendered are the trees whose nodes agree with
the tokens they keep: a name is a word that is not reserved, a number has the value of its digits, an operator
is the text of its token. Nothing is missing in such a tree, except the operand of a bare `return`.
-/

set_option autoImplicit false

namespace LetLang

/-- The precedence of the operators that stand between two operands, from loose to tight. -/
def Token.Kind.precedence : Token.Kind → Nat
  | .equal | .notEqual => 1
  | .less | .greater => 2
  | .plus | .minus => 3
  | .asterisk | .slash => 4
  | _ => 0

namespace Grammar

/-! ## Where parentheses are needed -/

/-- The places an expression can stand in. -/
inductive Position where
  /-- Between delimiters: a condition, an argument, the expression of a statement, inside parentheses. -/
  | free
  /-- After a sign. -/
  | operand
  /-- Before the arguments of a call. -/
  | callee
  /-- Before an infix operator of that kind. -/
  | left (op : Token.Kind)
  /-- After an infix operator of that kind. -/
  | right (op : Token.Kind)

/-- Whether an expression has to be put in parentheses in that place. On the left of an operator it may be as
loose as the operator, on the right it has to be tighter: operators group to the left. -/
def Position.needsParens : Position → Expr → Bool
  | .operand, .binary _ _ _ _ => true
  | .callee, .binary _ _ _ _ => true
  | .callee, .unary _ _ _ => true
  | .left op, .binary t _ _ _ => t.kind.precedence < op.precedence
  | .right op, .binary t _ _ _ => t.kind.precedence ≤ op.precedence
  | _, _ => false

/-! ## Renderings -/

/-- What is rendered. An expression has renderings in a place, which may put it in parentheses, and bare
ones, which do not. -/
inductive Item where
  | stmts (ss : List Stmt)
  | stmt (s : Stmt)
  | block (b : Block)
  | expr (place : Position) (e : Expr)
  | bare (e : Expr)
  | arguments (es : List Expr)
  | moreArguments (es : List Expr)

/-- The token of a name. -/
def nameToken (x : String) : Token := ⟨.ident, x⟩

/-- An occurrence of a name. -/
def occurrence (x : String) : Ident := ⟨nameToken x, x⟩

/-- The token of a truth value. -/
def truthToken (b : Bool) : Token := .fixed (if b then .kwTrue else .kwFalse)

/-- Names with a comma between them. -/
def parameterTokens (xs : List String) : List Token :=
  (xs.map nameToken).intersperse (.fixed .comma)

open Token (fixed)

/-- The renderings of an item. -/
inductive Renders : Item → List Token → Prop where
  -- Statements
  | noStmts : Renders (.stmts []) []
  | moreStmts {s : Stmt} {ss : List Stmt} {a b : List Token} : Renders (.stmt s) a →
      Renders (.stmts ss) b → Renders (.stmts (s :: ss)) (a ++ b)
  | bind {x : String} {e : Expr} {a : List Token} : Token.IsName x → Renders (.expr .free e) a →
      Renders (.stmt (.bind (fixed .kwLet) (occurrence x) e))
        (fixed .kwLet :: nameToken x :: fixed .assign :: (a ++ [fixed .semicolon]))
  | retNothing :
      Renders (.stmt (.ret (fixed .kwReturn) .missing)) [fixed .kwReturn, fixed .semicolon]
  | ret {e : Expr} {a : List Token} : Renders (.expr .free e) a →
      Renders (.stmt (.ret (fixed .kwReturn) e)) (fixed .kwReturn :: (a ++ [fixed .semicolon]))
  /-- The token of an expression statement is the first one of its rendering. -/
  | exprStmt {t : Token} {e : Expr} {a : List Token} : Renders (.expr .free e) (t :: a) →
      Renders (.stmt (.expr t e)) (t :: (a ++ [fixed .semicolon]))
  | block {ss : List Stmt} {a : List Token} : Renders (.stmts ss) a →
      Renders (.block (.mk (fixed .openBrace) ss)) (fixed .openBrace :: (a ++ [fixed .closeBrace]))
  -- Parentheses: the only rules that look at the place
  | plain {place : Position} {e : Expr} {a : List Token} : place.needsParens e = false →
      Renders (.bare e) a → Renders (.expr place e) a
  | parens {place : Position} {e : Expr} {a : List Token} : Renders (.expr .free e) a →
      Renders (.expr place e) (fixed .openParen :: (a ++ [fixed .closeParen]))
  -- Bare expressions
  | name {x : String} : Token.IsName x → Renders (.bare (.ident (occurrence x))) [nameToken x]
  | number {d : String} : Token.IsNumeral d → digitsValue d ≤ maxInteger →
      Renders (.bare (.int ⟨.int, d⟩ (Int64.ofNat (digitsValue d)))) [⟨.int, d⟩]
  | truth {b : Bool} : Renders (.bare (.bool (truthToken b) b)) [truthToken b]
  | unary {op : Token.Kind} {e : Expr} {a : List Token} : op.isSign = true →
      Renders (.expr .operand e) a →
      Renders (.bare (.unary (fixed op) op.spelling e)) (fixed op :: a)
  | binary {op : Token.Kind} {l r : Expr} {a b : List Token} : op.isInfix = true →
      Renders (.expr (.left op) l) a → Renders (.expr (.right op) r) b →
      Renders (.bare (.binary (fixed op) op.spelling l r)) (a ++ fixed op :: b)
  | ifThen {c : Expr} {body : Block} {a b : List Token} : Renders (.expr .free c) a →
      Renders (.block body) b →
      Renders (.bare (.ifThen (fixed .kwIf) c body))
        (fixed .kwIf :: fixed .openParen :: (a ++ fixed .closeParen :: b))
  | ifElse {c : Expr} {body other : Block} {a b b' : List Token} : Renders (.expr .free c) a →
      Renders (.block body) b → Renders (.block other) b' →
      Renders (.bare (.ifElse (fixed .kwIf) c body other))
        (fixed .kwIf :: fixed .openParen ::
          (a ++ fixed .closeParen :: (b ++ fixed .kwElse :: b')))
  | fn {xs : List String} {body : Block} {b : List Token} : (∀ x ∈ xs, Token.IsName x) →
      Renders (.block body) b →
      Renders (.bare (.fn (fixed .kwFn) (xs.map occurrence) body))
        (fixed .kwFn :: fixed .openParen :: (parameterTokens xs ++ fixed .closeParen :: b))
  | call {f : Expr} {args : List Expr} {a b : List Token} : Renders (.expr .callee f) a →
      Renders (.arguments args) b →
      Renders (.bare (.call (fixed .openParen) f args))
        (a ++ fixed .openParen :: (b ++ [fixed .closeParen]))
  -- Arguments
  | noArguments : Renders (.arguments []) []
  | someArguments {e : Expr} {es : List Expr} {a b : List Token} : Renders (.expr .free e) a →
      Renders (.moreArguments es) b → Renders (.arguments (e :: es)) (a ++ b)
  | noMoreArguments : Renders (.moreArguments []) []
  | oneMoreArgument {e : Expr} {es : List Expr} {a b : List Token} : Renders (.expr .free e) a →
      Renders (.moreArguments es) b →
      Renders (.moreArguments (e :: es)) (fixed .comma :: (a ++ b))

/-! ## Renderings are texts of the grammar -/

theorem spells_parameters : ∀ (xs : List String),
    Spells (.parameters (xs.map occurrence)) (parameterTokens xs) := by
  intro xs
  induction xs with
  | nil => exact .noParameters
  | cons x xs ih =>
    cases xs with
    | nil => exact .oneParameter (x := nameToken x) rfl
    | cons y ys => exact .moreParameters (x := nameToken x) rfl rfl ih

/-- A rendering is one of the texts that the grammar allows for the tree. Arguments after the first extend
whatever text the first one has. -/
def Item.Spelled : Item → List Token → Prop
  | .stmts ss, ts => Spells (.stmts ss) ts
  | .stmt s, ts => Spells (.stmt s) ts
  | .block b, ts => Spells (.block b) ts
  | .expr _ e, ts => Spells (.expr e) ts
  | .bare e, ts => Spells (.expr e) ts
  | .arguments es, ts => Spells (.arguments es) ts
  | .moreArguments es, ts =>
    ∀ e a, Spells (.expr e) a → Spells (.arguments (e :: es)) (a ++ ts)

theorem integer?_of_le {d : String} (h : digitsValue d ≤ maxInteger) :
    integer? d = some (Int64.ofNat (digitsValue d)) := by
  rw [integer?]
  exact if_pos h

theorem Renders.spelled {item : Item} {ts : List Token} (h : Renders item ts) :
    item.Spelled ts := by
  induction h with
  | noStmts => exact .noStmts
  | moreStmts _ _ ihs ihss => exact .moreStmts ihs ihss
  | @bind x _ _ _ _ ih =>
    exact @Spells.bind _ (nameToken x) _ _ _ _ rfl rfl rfl ih (.semicolon rfl)
  | retNothing => exact .retNothing rfl rfl
  | ret _ ih => exact .ret rfl ih (.semicolon rfl)
  | exprStmt _ ih => exact .exprStmt ih (.semicolon rfl)
  | block _ ih => exact .block rfl ih rfl
  | plain _ _ ih => exact ih
  | parens _ ih => exact .group rfl ih rfl
  | @name x _ => exact .name (t := nameToken x) rfl
  | @number d _ hle => exact .number (t := ⟨.int, d⟩) rfl (integer?_of_le hle)
  | @truth b => cases b <;> exact .truth rfl
  | @unary op _ _ hop _ ih => exact .unary (t := fixed op) hop ih
  | @binary op _ _ _ _ hop _ _ ihl ihr => exact .binary (t := fixed op) ihl hop ihr
  | ifThen _ _ ihc ihb => exact .ifThen rfl rfl ihc rfl ihb
  | ifElse _ _ _ ihc ihb ihb' => exact .ifElse rfl rfl ihc rfl ihb rfl ihb'
  | @fn xs _ _ _ _ ihb => exact .fn rfl rfl (spells_parameters xs) rfl ihb
  | call _ _ ihf iha => exact .call ihf rfl iha rfl
  | noArguments => exact .noArguments
  | someArguments _ _ ihe ihes => exact ihes _ _ ihe
  | noMoreArguments =>
    intro e a he
    rw [List.append_nil]
    exact .oneArgument he
  | oneMoreArgument _ _ ihe ihes =>
    intro e a he
    exact .moreArguments he rfl (ihes _ _ ihe)

/-! ## Renderings are texts of the lexer -/

theorem lexical_nameToken {x : String} (h : Token.IsName x) : (nameToken x).Lexical :=
  Token.lexical_name h

theorem lexical_truthToken (b : Bool) : (truthToken b).Lexical := by
  cases b <;> exact Token.lexical_fixed rfl

theorem isFixed_of_isSign {op : Token.Kind} (h : op.isSign = true) : op.isFixed = true := by
  cases op <;> first | rfl | exact absurd h (by decide)

theorem isFixed_of_isInfix {op : Token.Kind} (h : op.isInfix = true) : op.isFixed = true := by
  cases op <;> first | rfl | exact absurd h (by decide)

theorem lexical_parameterTokens {xs : List String} (h : ∀ x ∈ xs, Token.IsName x) :
    ∀ t ∈ parameterTokens xs, t.Lexical := by
  induction xs with
  | nil => exact fun t ht => absurd ht (by simp [parameterTokens])
  | cons x xs ih =>
    have hx : (nameToken x).Lexical := lexical_nameToken (h x List.mem_cons_self)
    have hxs := ih fun y hy => h y (List.mem_cons_of_mem _ hy)
    cases xs with
    | nil => simpa [parameterTokens] using hx
    | cons y ys =>
      intro t ht
      rcases List.mem_cons.mp ht with rfl | ht
      · exact hx
      · rcases List.mem_cons.mp ht with rfl | ht
        · exact Token.lexical_fixed rfl
        · exact hxs t ht

/-- Every token of a rendering is one that its own text is read as. -/
theorem Renders.lexical {item : Item} {ts : List Token} (h : Renders item ts) :
    ∀ t ∈ ts, t.Lexical := by
  have hfixed : ∀ k : Token.Kind, k.isFixed = true → (fixed k).Lexical :=
    fun k hk => Token.lexical_fixed hk
  induction h with
  | noStmts | noArguments | noMoreArguments => exact fun t ht => absurd ht (by simp)
  | moreStmts _ _ iha ihb | someArguments _ _ iha ihb =>
    simpa only [List.forall_mem_append] using ⟨iha, ihb⟩
  | bind hx _ ih =>
    simp only [List.forall_mem_cons, List.forall_mem_append]
    exact ⟨hfixed _ rfl, lexical_nameToken hx, hfixed _ rfl, ih, hfixed _ rfl, nofun⟩
  | retNothing =>
    simp only [List.forall_mem_cons]
    exact ⟨hfixed _ rfl, hfixed _ rfl, nofun⟩
  | ret _ ih | block _ ih | parens _ ih =>
    simp only [List.forall_mem_cons, List.forall_mem_append]
    exact ⟨hfixed _ rfl, ih, hfixed _ rfl, nofun⟩
  | exprStmt _ ih =>
    simp only [List.forall_mem_cons, List.forall_mem_append] at ih ⊢
    exact ⟨ih.1, ih.2, hfixed _ rfl, nofun⟩
  | plain _ _ ih => exact ih
  | name hx => simpa using lexical_nameToken hx
  | number hd => simpa using Token.lexical_numeral hd
  | truth => simpa using lexical_truthToken _
  | unary hop _ ih =>
    simp only [List.forall_mem_cons]
    exact ⟨hfixed _ (isFixed_of_isSign hop), ih⟩
  | binary hop _ _ ihl ihr =>
    simp only [List.forall_mem_append, List.forall_mem_cons]
    exact ⟨ihl, hfixed _ (isFixed_of_isInfix hop), ihr⟩
  | ifThen _ _ ihc ihb =>
    simp only [List.forall_mem_cons, List.forall_mem_append]
    exact ⟨hfixed _ rfl, hfixed _ rfl, ihc, hfixed _ rfl, ihb⟩
  | ifElse _ _ _ ihc ihb ihb' =>
    simp only [List.forall_mem_cons, List.forall_mem_append]
    exact ⟨hfixed _ rfl, hfixed _ rfl, ihc, hfixed _ rfl, ihb, hfixed _ rfl, ihb'⟩
  | fn hxs _ ihb =>
    simp only [List.forall_mem_cons, List.forall_mem_append]
    exact ⟨hfixed _ rfl, hfixed _ rfl, lexical_parameterTokens hxs, hfixed _ rfl, ihb⟩
  | call _ _ ihf iha =>
    simp only [List.forall_mem_cons, List.forall_mem_append]
    exact ⟨ihf, hfixed _ rfl, iha, hfixed _ rfl, nofun⟩
  | oneMoreArgument _ _ ihe ihes =>
    simp only [List.forall_mem_cons, List.forall_mem_append]
    exact ⟨hfixed _ rfl, ihe, ihes⟩

end Grammar

end LetLang
