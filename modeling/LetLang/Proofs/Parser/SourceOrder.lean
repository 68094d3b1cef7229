import LetLang.Proofs.Parser.Soundness

/-!
# Trees in source order

A tree keeps the tokens that mean something and drops those that only hold the others together: brackets, commas,
semicolons, the `=` of a binding, and `else`. Read from left to right it should give back the rest of its source, token
by token (`Program.ofSource_sourceOrder`).

The parser makes that anything but plain. What it cannot read it leaves out or replaces by a hole: a statement that is
none, an argument that is missing, the rest of a block that never closes. All of this comes with a diagnostic, so a text
without diagnostics is one of the texts that `Spells` its tree, and everything here is read off `Spells`.
-/

set_option autoImplicit false

namespace LetLang

/-- The tokens that leave no trace in a tree. -/
def Token.Kind.isPunctuation : Token.Kind → Bool
  | .openParen | .closeParen | .openBrace | .closeBrace | .comma | .semicolon | .assign | .kwElse => true
  | _ => false

/-- The tokens that a tree keeps. -/
def Token.kept (ts : List Token) : List Token := ts.filter fun t => !t.kind.isPunctuation

/-! ## Tokens of a tree -/

mutual

/-- The tokens of an expression in source order. Those of a call are the tokens of its callee and its arguments: its own
is a parenthesis. -/
def Expr.sourceOrder : Expr → List Token
  | .missing => []
  | .ident x => [x.token]
  | .int t _ => [t]
  | .bool t _ => [t]
  | .unary t _ e => t :: e.sourceOrder
  | .binary t _ l r => l.sourceOrder ++ t :: r.sourceOrder
  | .ifThen t c b => t :: (c.sourceOrder ++ b.sourceOrder)
  | .ifElse t c b b' => t :: (c.sourceOrder ++ (b.sourceOrder ++ b'.sourceOrder))
  | .fn t params b => t :: (params.map Ident.token ++ b.sourceOrder)
  | .call _ f args => f.sourceOrder ++ Expr.allSourceOrder args

def Expr.allSourceOrder : List Expr → List Token
  | [] => []
  | e :: es => e.sourceOrder ++ Expr.allSourceOrder es

def Stmt.sourceOrder : Stmt → List Token
  | .bind t x e => t :: x.token :: e.sourceOrder
  | .ret t e => t :: e.sourceOrder
  -- its token is the first one of the expression, or a parenthesis before that
  | .expr _ e => e.sourceOrder
  | .block b => b.sourceOrder

def Block.sourceOrder : Block → List Token
  | .mk _ ss => Stmt.allSourceOrder ss

def Stmt.allSourceOrder : List Stmt → List Token
  | [] => []
  | s :: ss => s.sourceOrder ++ Stmt.allSourceOrder ss

end

/-! ## Holes -/

mutual

/-- Whether an expression is there, and has no hole in it. -/
def Expr.isWhole : Expr → Bool
  | .missing => false
  | .ident _ => true
  | .int _ _ => true
  | .bool _ _ => true
  | .unary _ _ e => e.isWhole
  | .binary _ _ l r => l.isWhole && r.isWhole
  | .ifThen _ c b => c.isWhole && b.isWhole
  | .ifElse _ c b b' => c.isWhole && (b.isWhole && b'.isWhole)
  | .fn _ _ b => b.isWhole
  | .call _ f args => f.isWhole && Expr.allWhole args

def Expr.allWhole : List Expr → Bool
  | [] => true
  | e :: es => e.isWhole && Expr.allWhole es

/-- Whether a statement has no hole in it, save the operand that a bare `return` does not have. -/
def Stmt.isWhole : Stmt → Bool
  | .bind _ _ e => e.isWhole
  | .ret _ e => !e.isPresent || e.isWhole
  | .expr _ e => e.isWhole
  | .block b => b.isWhole

def Block.isWhole : Block → Bool
  | .mk _ ss => Stmt.allWhole ss

def Stmt.allWhole : List Stmt → Bool
  | [] => true
  | s :: ss => s.isWhole && Stmt.allWhole ss

end

namespace Grammar

def Part.sourceOrder : Part → List Token
  | .stmts ss => Stmt.allSourceOrder ss
  | .stmt s => s.sourceOrder
  | .block b => b.sourceOrder
  | .expr e => e.sourceOrder
  | .arguments es => Expr.allSourceOrder es
  | .parameters xs => xs.map Ident.token

def Part.isWhole : Part → Bool
  | .stmts ss => Stmt.allWhole ss
  | .stmt s => s.isWhole
  | .block b => b.isWhole
  | .expr e => e.isWhole
  | .arguments es => Expr.allWhole es
  | .parameters _ => true

/-! ## What is kept of a text -/

@[simp] theorem kept_nil : Token.kept [] = [] := rfl

@[simp] theorem kept_append (a b : List Token) : Token.kept (a ++ b) = Token.kept a ++ Token.kept b :=
  List.filter_append a b

theorem kept_cons {t : Token} (h : t.kind.isPunctuation = false) (ts : List Token) :
    Token.kept (t :: ts) = t :: Token.kept ts :=
  List.filter_cons_of_pos (by simp [h])

theorem kept_cons_punctuation {t : Token} (h : t.kind.isPunctuation = true) (ts : List Token) :
    Token.kept (t :: ts) = Token.kept ts :=
  List.filter_cons_of_neg (by simp [h])

theorem isPunctuation_of_isInfix {k : Token.Kind} (h : k.isInfix = true) : k.isPunctuation = false := by
  revert h
  cases k <;> decide

theorem isPunctuation_of_isSign {k : Token.Kind} (h : k.isSign = true) : k.isPunctuation = false := by
  revert h
  cases k <;> decide

theorem kept_semicolon {semi : List Token} (h : Derives .semicolon? semi) : Token.kept semi = [] := by
  cases h with
  | noSemicolon => rfl
  | semicolon ht => rw [kept_cons_punctuation (by rw [ht]; rfl), kept_nil]

/-- **A tree has the tokens of its text**, whichever text that is: by induction over the text, where each rule adds the
tokens of its node and punctuation. -/
theorem Spells.sourceOrder_eq {p : Part} {ts : List Token} (h : Spells p ts) : p.sourceOrder = Token.kept ts := by
  -- a token of a kind that is named in the rule is kept, or it is not
  have keep {t : Token} {k : Token.Kind} (ht : t.kind = k) (hk : k.isPunctuation = false) (us : List Token) :
      Token.kept (t :: us) = t :: Token.kept us := kept_cons (ht ▸ hk) us
  have drop {t : Token} {k : Token.Kind} (ht : t.kind = k) (hk : k.isPunctuation = true) (us : List Token) :
      Token.kept (t :: us) = Token.kept us := kept_cons_punctuation (ht ▸ hk) us
  induction h with
  | noStmts => rfl
  | moreStmts _ _ ihs ihss => rw [kept_append, ← ihs, ← ihss]; rfl
  | bind hk hn he _ hs ih =>
    rw [keep hk rfl, keep hn rfl, drop he rfl, kept_append, kept_semicolon hs, List.append_nil, ← ih]
    rfl
  | retNothing hk ht => rw [keep hk rfl, drop ht rfl]; rfl
  | ret hk _ hs ih => rw [keep hk rfl, kept_append, kept_semicolon hs, List.append_nil, ← ih]; rfl
  | exprStmt _ hs ih => rw [← List.cons_append, kept_append, kept_semicolon hs, List.append_nil, ← ih]; rfl
  | block ho _ hc ih => rw [drop ho rfl, kept_append, drop hc rfl, kept_nil, List.append_nil, ← ih]; rfl
  | name ht => rw [keep ht rfl]; rfl
  | number ht _ => rw [keep ht rfl]; rfl
  | @truth t b ht => rw [keep ht (by cases b <;> rfl)]; rfl
  | unary ht _ ih => rw [kept_cons (isPunctuation_of_isSign ht), ← ih]; rfl
  | binary _ ht _ ihl ihr => rw [kept_append, kept_cons (isPunctuation_of_isInfix ht), ← ihl, ← ihr]; rfl
  | group ho _ hc ih => rw [drop ho rfl, kept_append, drop hc rfl, kept_nil, List.append_nil, ih]
  | ifThen hk ho _ hp _ ihc ihb =>
    rw [keep hk rfl, drop ho rfl, kept_append, drop hp rfl, ← ihc, ← ihb]
    rfl
  | ifElse hk ho _ hp _ hk' _ ihc ihb ihb' =>
    rw [keep hk rfl, drop ho rfl, kept_append, drop hp rfl, kept_append, drop hk' rfl, ← ihc, ← ihb, ← ihb']
    rfl
  | fn hk ho _ hp _ ihx ihb =>
    rw [keep hk rfl, drop ho rfl, kept_append, drop hp rfl, ← ihx, ← ihb]
    rfl
  | call _ ho _ hp ihf iha =>
    rw [kept_append, drop ho rfl, kept_append, drop hp rfl, kept_nil, List.append_nil, ← ihf, ← iha]
    rfl
  | noArguments => rfl
  | oneArgument _ ih => rw [← ih]; exact List.append_nil _
  | moreArguments _ ht _ ihe ihes => rw [kept_append, drop ht rfl, ← ihe, ← ihes]; rfl
  | noParameters => rfl
  | oneParameter hx => rw [keep hx rfl]; rfl
  | moreParameters hx ht _ ih => rw [keep hx rfl, drop ht rfl, ← ih]; rfl

/-- **A tree that has a text has no holes** but the operand of a bare `return`: no rule of the grammar makes one. -/
theorem Spells.isWhole {p : Part} {ts : List Token} (h : Spells p ts) : p.isWhole = true := by
  induction h with
  | noStmts | retNothing | name | number | truth | noArguments | noParameters | oneParameter | moreParameters => rfl
  | moreStmts _ _ ihs ihss => exact Bool.and_eq_true_iff.mpr ⟨ihs, ihss⟩
  | bind _ _ _ _ _ ih => exact ih
  | ret _ _ _ ih => exact Bool.or_eq_true_iff.mpr (.inr ih)
  | exprStmt _ _ ih => exact ih
  | block _ _ _ ih => exact ih
  | unary _ _ ih => exact ih
  | binary _ _ _ ihl ihr => exact Bool.and_eq_true_iff.mpr ⟨ihl, ihr⟩
  | group _ _ _ ih => exact ih
  | ifThen _ _ _ _ _ ihc ihb => exact Bool.and_eq_true_iff.mpr ⟨ihc, ihb⟩
  | ifElse _ _ _ _ _ _ _ ihc ihb ihb' =>
    exact Bool.and_eq_true_iff.mpr ⟨ihc, Bool.and_eq_true_iff.mpr ⟨ihb, ihb'⟩⟩
  | fn _ _ _ _ _ _ ihb => exact ihb
  | call _ _ _ _ ihf iha => exact Bool.and_eq_true_iff.mpr ⟨ihf, iha⟩
  | oneArgument _ ih => exact Bool.and_eq_true_iff.mpr ⟨ih, rfl⟩
  | moreArguments _ _ _ ihe ihes => exact Bool.and_eq_true_iff.mpr ⟨ihe, ihes⟩

end Grammar

/-! ## Programs -/

open Grammar LetLang.Parser

/-- **A text without diagnostics is read without loss.** Its tree has no holes; it is a tree of the whole text, so each
block, parameter list and argument list has all that stands between its brackets, and a `return` has no operand only
where a semicolon follows it; and its tokens in source order are those of the text without the punctuation. -/
theorem Program.ofSource_sourceOrder (src : Source) (h : (Program.ofSource src).2 = []) :
    Stmt.allWhole (Program.ofSource src).1 = true ∧ Spells (.stmts (Program.ofSource src).1) src.tokens ∧
      Stmt.allSourceOrder (Program.ofSource src).1 = src.tokens.filter fun t => !t.kind.isPunctuation := by
  obtain ⟨⟨p, ds, rest⟩, hr, hparse⟩ := Program.parse_eq src.tokens
  simp only [Program.ofSource, hparse] at h ⊢
  subst h
  have hspells := (sound_statementsToEnd _ _ p rest hr).2
  exact ⟨hspells.isWhole, hspells, hspells.sourceOrder_eq⟩

/-- A text with every kind of list in it, an empty one of each, and a `return` without operand. -/
def everyListText : Source :=
  .ofString
    "let f = fn(x, y) \x7b if (!x) \x7b return; \x7d else \x7b \x7d g(x, (y), h()) \x7d fn() \x7b \x7d f(1, -2);"

theorem Program.ofSource_sourceOrder_everyList :
    (Program.ofSource everyListText).2 = [] ∧ Stmt.allWhole (Program.ofSource everyListText).1 = true ∧
      (Stmt.allSourceOrder (Program.ofSource everyListText).1).map Token.literal =
        ["let", "f", "fn", "x", "y", "if", "!", "x", "return", "g", "x", "y", "h", "fn", "f", "1", "-", "2"] := by
  have hclean : (Program.ofSource everyListText).2 = [] := by decide +kernel
  obtain ⟨hwhole, -, horder⟩ := Program.ofSource_sourceOrder everyListText hclean
  exact ⟨hclean, hwhole, by rw [horder]; decide +kernel⟩

end LetLang
