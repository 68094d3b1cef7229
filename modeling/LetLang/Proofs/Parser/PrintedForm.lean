import LetLang.Tree.Printer
import LetLang.Proofs.Parser.RoundTrip
import LetLang.Proofs.Token.MaximalMunch
import Mathlib.Data.List.Forall2

/-!
# Reading what was printed

The printed form of a tree is made for people: blocks lose their braces, and statements stand side by side with
nothing between them. It is a program again where neither matters, which is for names, literals, operators and calls,
in statements that all end in a semicolon, except perhaps the last (`Program.ofSource_text`).

Two things have to fit. The texts that the printer puts next to each other must not run into one another as tokens:
what follows a text starts with a bracket, a comma, a semicolon or a blank, and a sign is followed by something that
does not start with `=`. And the tokens must be a *rendering* of the tree, in every place it can stand in. The printer
puts each operator application in parentheses, so this is a matter of one rule for each form of expression; that a
rendering is read back is known.

A tree keeps its tokens, and prints them. So it has to come from a text, where a token has the text of its kind
(`Token.Genuine`).
-/

set_option autoImplicit false

namespace LetLang

/-! ## Tokens of a text -/

namespace Source

theorem isAlpha_char {b : UInt8} (h : isLetter b = true) :
    (Char.ofNat b.toNat).isAlpha = true ∨ Char.ofNat b.toNat = '_' := by
  have hb := toNat_char b
  simp only [isLetter, Bool.or_eq_true, Bool.and_eq_true, decide_eq_true_eq, UInt8.le_iff_toNat_le, beq_iff_eq,
    UInt8.reduceToNat] at h
  rcases h with h | rfl
  · left
    show (decide (65 ≤ (Char.ofNat b.toNat).val ∧ (Char.ofNat b.toNat).val ≤ 90) ||
      97 ≤ (Char.ofNat b.toNat).val && (Char.ofNat b.toNat).val ≤ 122) = true
    simp only [Bool.or_eq_true, Bool.and_eq_true, decide_eq_true_eq, UInt32.le_iff_toNat_le]
    show (65 ≤ (Char.ofNat b.toNat).toNat ∧ (Char.ofNat b.toNat).toNat ≤ 90) ∨
      (97 ≤ (Char.ofNat b.toNat).toNat ∧ (Char.ofNat b.toNat).toNat ≤ 122)
    omega
  · right
    rfl

theorem isDigit_char {b : UInt8} (h : isDigit b = true) : (Char.ofNat b.toNat).isDigit = true := by
  have hb := toNat_char b
  simp only [isDigit, Bool.and_eq_true, decide_eq_true_eq, UInt8.le_iff_toNat_le, UInt8.reduceToNat] at h
  simp only [Char.isDigit, Bool.and_eq_true, decide_eq_true_eq, ge_iff_le, UInt32.le_iff_toNat_le]
  show 48 ≤ (Char.ofNat b.toNat).toNat ∧ (Char.ofNat b.toNat).toNat ≤ 57
  omega

/-- The characters of a text in ASCII have its bytes. -/
theorem mem_of_ofString {s : String} {c : Char} (h : ∀ b ∈ ofString s, b.toNat ≤ 127) (hc : c ∈ s.toList) :
    ∃ b ∈ ofString s, c = Char.ofNat b.toNat := by
  have hs : s = text (ofString s) := ofString_inj (ofString_text h).symm
  rw [hs, text, String.toList_ofList] at hc
  obtain ⟨b, hb, rfl⟩ := List.mem_map.mp hc
  exact ⟨b, hb, rfl⟩

end Source

namespace Token

/-- The tokens that a text can have: names, numbers, one token of each other kind, and foreign bytes. -/
inductive Genuine : Token → Prop where
  | name {s : String} : IsName s → Genuine ⟨.ident, s⟩
  | number {s : String} : IsNumeral s → Genuine ⟨.int, s⟩
  | fixed {k : Kind} : k.isFixed = true → Genuine (fixed k)
  | foreign {s : String} : Genuine ⟨.illegal, s⟩

theorem ne_empty_of_ofString {s : String} (h : Source.ofString s ≠ []) : s ≠ "" := by
  rintro rfl
  exact h rfl

theorem genuine_word {s : String} (hne : Source.ofString s ≠ [])
    (hw : ∀ b ∈ Source.ofString s, Source.isLetter b = true) : Genuine ⟨.ofWord s, s⟩ := by
  have hkeywords : ∀ w ∈ keywords, (⟨w.2, w.1⟩ : Token) = .fixed w.2 ∧ w.2.isFixed = true := by decide
  unfold Kind.ofWord
  cases hlookup : keywords.lookup s with
  | some k =>
    obtain ⟨l₁, l₂, hmem, -⟩ := List.lookup_eq_some_iff.mp hlookup
    obtain ⟨heq, hfixed⟩ := hkeywords (s, k) (by rw [hmem]; simp)
    show Genuine ⟨k, s⟩
    rw [heq]
    exact .fixed hfixed
  | none =>
    refine .name ⟨ne_empty_of_ofString hne, ?_, ?_⟩
    · intro c hc
      obtain ⟨b, hb, rfl⟩ := Source.mem_of_ofString (fun b hb => Source.toNat_le_of_isLetter (hw b hb)) hc
      exact Source.isAlpha_char (hw b hb)
    · intro hmem
      obtain ⟨w, hreserved, rfl⟩ := List.mem_map.mp hmem
      exact absurd (List.lookup_eq_none_iff.mp hlookup w hreserved) (by simp)

theorem genuine_of_lexeme {w : List UInt8} {t : Token} (h : Source.Lexeme w t) : t.Genuine := by
  have hsymbols : ∀ k ∈ symbols, (⟨k, k.name⟩ : Token) = .fixed k ∧ k.isFixed = true := by decide
  cases h with
  | word hne hw hs =>
    subst hs
    exact genuine_word hne hw
  | number hne hw hs =>
    subst hs
    refine .number ⟨ne_empty_of_ofString hne, ?_⟩
    intro c hc
    obtain ⟨b, hb, rfl⟩ := Source.mem_of_ofString (fun b hb => Source.toNat_le_of_isDigit (hw b hb)) hc
    exact Source.isDigit_char (hw b hb)
  | symbol hmem =>
    obtain ⟨heq, hfixed⟩ := hsymbols _ hmem
    rw [heq]
    exact .fixed hfixed
  | illegal => exact .foreign

theorem genuine_of_munched {src : Source} {ts : List Token} (h : src.Munched ts) : ∀ t ∈ ts, t.Genuine := by
  induction h with
  | done _ => exact fun t ht => absurd ht (by simp)
  | token _ hw _ _ ih =>
    intro t ht
    rcases List.mem_cons.mp ht with rfl | ht
    · exact genuine_of_lexeme hw
    · exact ih t ht

namespace Genuine
variable {t : Token}

theorem isName (h : t.Genuine) (hk : t.kind = .ident) : ∃ x, IsName x ∧ t = ⟨.ident, x⟩ := by
  cases h with
  | name hx => exact ⟨_, hx, rfl⟩
  | number => cases hk
  | fixed hf =>
    obtain rfl : _ = Kind.ident := hk
    exact absurd hf (by decide)
  | foreign => cases hk

theorem isNumeral (h : t.Genuine) (hk : t.kind = .int) : ∃ d, IsNumeral d ∧ t = ⟨.int, d⟩ := by
  cases h with
  | number hd => exact ⟨_, hd, rfl⟩
  | name => cases hk
  | fixed hf =>
    obtain rfl : _ = Kind.int := hk
    exact absurd hf (by decide)
  | foreign => cases hk

theorem eq_fixed {k : Kind} (h : t.Genuine) (hk : t.kind = k) (hfixed : k.isFixed = true) : t = .fixed k := by
  subst hk
  cases h with
  | fixed => rfl
  | name | number | foreign => cases hfixed

end Genuine

end Token

/-! ## Trees of operators and calls -/

mutual

/-- Names, literals, operators and calls. -/
def Expr.isPlain : Expr → Bool
  | .ident _ | .int _ _ | .bool _ _ => true
  | .unary _ _ e => e.isPlain
  | .binary _ _ l r => l.isPlain && r.isPlain
  | .call _ f args => f.isPlain && Expr.allPlain args
  | .missing | .ifThen _ _ _ | .ifElse _ _ _ _ | .fn _ _ _ => false

def Expr.allPlain : List Expr → Bool
  | [] => true
  | e :: es => e.isPlain && Expr.allPlain es

end

/-- Whether a statement has no other expressions than these; a bare `return` has none at all. -/
def Stmt.isPlain : Stmt → Bool
  | .bind _ _ e => e.isPlain
  | .ret _ e => !e.isPresent || e.isPlain
  | .expr _ e => e.isPlain
  | .block _ => false

/-- Bindings and `return`s: the statements that are printed with a semicolon. -/
def Stmt.isClosed : Stmt → Bool
  | .bind _ _ _ | .ret _ _ => true
  | .expr _ _ | .block _ => false

/-- The symbols that bracket, separate or end. -/
def Token.Kind.isDelimiter : Token.Kind → Bool
  | .comma | .semicolon | .openParen | .closeParen | .openBrace | .closeBrace => true
  | _ => false

/-- Equal in everything, save the token at which an expression statement begins. -/
inductive Stmt.Agrees : Stmt → Stmt → Prop where
  | refl (s : Stmt) : Agrees s s
  | expr (t t' : Token) (e : Expr) : Agrees (.expr t e) (.expr t' e)

theorem Stmt.Agrees.text_eq {s s' : Stmt} (h : Agrees s s') : s.text = s'.text := by
  cases h with
  | refl => rfl
  | expr => simp only [Stmt.text]

theorem Program.text_eq_of_agrees {p q : Program} (h : List.Forall₂ Stmt.Agrees p q) : p.text = q.text := by
  unfold Program.text
  induction h with
  | nil => rfl
  | cons hs _ ih => simp only [Stmt.concatText, hs.text_eq, ih]

namespace Grammar

open Token (fixed tokens_symbol)
open Source (tokens ofString ofString_append tokens_append tokens_append_blank StartsAnew startsAnew_cons)

/-! ## Texts side by side -/

section
variable {s s' : String}

theorem noZero_append (h : 0 ∉ ofString s) (h' : 0 ∉ ofString s') : 0 ∉ ofString (s ++ s') := by
  rw [ofString_append, List.mem_append, not_or]
  exact ⟨h, h'⟩

theorem noZero_spelling {k : Token.Kind} (h : k.isFixed = true) : 0 ∉ ofString k.spelling :=
  (Token.lexical_fixed h).2

theorem tokens_spelling {k : Token.Kind} (h : k.isFixed = true) : tokens (ofString k.spelling) = [fixed k] :=
  (Token.lexical_fixed h).tokens_eq

/-- A space between two texts. -/
theorem tokens_space (h : 0 ∉ ofString s) :
    tokens (ofString (s ++ " " ++ s')) = tokens (ofString s) ++ tokens (ofString s') := by
  rw [String.append_assoc, ofString_append, ofString_append]
  exact tokens_append_blank rfl _ h

/-- A bracket, a comma or a semicolon between two texts. -/
theorem tokens_delimiter {k : Token.Kind} (hk : k.isDelimiter = true) (h : 0 ∉ ofString s) :
    tokens (ofString (s ++ k.spelling ++ s')) = tokens (ofString s) ++ fixed k :: tokens (ofString s') := by
  have hdelimiter : StartsAnew (ofString k.spelling ++ ofString s') ∧ k ∈ Token.symbols ∧
      ¬ (k = .assign ∨ k = .bang) := by
    cases k <;> first | exact ⟨startsAnew_cons ⟨rfl, rfl, rfl⟩, by decide, by decide⟩ | exact absurd hk (by decide)
  obtain ⟨hanew, hsymbol, hjoins⟩ := hdelimiter
  rw [String.append_assoc, ofString_append, ofString_append, tokens_append hanew h,
    tokens_symbol hsymbol fun hk => absurd hk hjoins]

theorem tokens_closed {k : Token.Kind} (hk : k.isDelimiter = true) (h : 0 ∉ ofString s) :
    tokens (ofString (s ++ k.spelling)) = tokens (ofString s) ++ [fixed k] := by
  have hend : tokens (ofString "") = [] := Source.tokens_of_next?_none rfl
  rw [← String.append_empty (s := s ++ k.spelling), tokens_delimiter hk h, hend]

end

/-! ## Texts of expressions -/

/-- The text is read as a rendering. -/
structure Printed (item : Item) (s : String) : Prop where
  renders : Renders item (tokens (ofString s))
  noZero : 0 ∉ ofString s

section
variable {e l r : Expr} {s s' : String} {pos : Position}

/-- An expression of a single token, which needs no parentheses anywhere. -/
theorem printed_token {t : Token} (h : Renders (.bare e) [t]) (hbare : pos.needsParens e = false) :
    Printed (.expr pos e) t.literal := by
  have ht : t.Lexical := h.lexical t List.mem_cons_self
  refine ⟨?_, ht.2⟩
  rw [ht.tokens_eq]
  exact .plain hbare h

/-- A text that starts with an `=` starts with no operand. -/
theorem tokens_equals (rest : Source) : ∃ t us, tokens (61 :: rest) = t :: us ∧ t.kind.operandForm? = none := by
  by_cases h : rest.head? = some 61
  · obtain ⟨more, rfl⟩ := List.head?_eq_some_iff.mp h
    exact ⟨fixed .equal, _, tokens_symbol (k := .equal) (by decide) (by simp), rfl⟩
  · exact ⟨fixed .assign, _, tokens_symbol (k := .assign) (by decide) fun _ => h, rfl⟩

theorem Printed.head_ne (h : Printed (.expr pos e) s) : (ofString s).head? ≠ some 61 := by
  intro hhead
  obtain ⟨rest, hrest⟩ := List.head?_eq_some_iff.mp hhead
  obtain ⟨t, us, htokens, hnone⟩ := tokens_equals rest
  obtain ⟨t', b, htokens', form, hform⟩ := Parser.head_of_renders h.renders
  rw [hrest, htokens] at htokens'
  obtain ⟨rfl, -⟩ := List.cons.inj htokens'
  exact absurd (hnone.symm.trans hform) (by simp)

/-- Parentheses around the text of an expression. -/
theorem printed_parens (h : Printed (.expr .free e) s) : Printed (.expr pos e) ("(" ++ s ++ ")") := by
  constructor
  · show Renders _ (tokens (ofString (Token.Kind.openParen.spelling ++ s ++ Token.Kind.closeParen.spelling)))
    rw [String.append_assoc, ofString_append, tokens_symbol (by decide) (by simp), tokens_closed rfl h.noZero]
    exact .parens h.renders
  · exact noZero_append (noZero_append (by decide) h.noZero) (by decide)

theorem printed_unary {op : Token.Kind} (hop : op.isSign = true) (h : Printed (.expr .operand e) s) :
    Printed (.expr .free (.unary (fixed op) op.spelling e)) (op.spelling ++ s) := by
  have hsymbol : op ∈ Token.symbols := by
    cases op <;> first | decide | exact absurd hop (by decide)
  constructor
  · rw [ofString_append, tokens_symbol hsymbol fun _ => h.head_ne]
    exact .plain rfl (.unary hop h.renders)
  · exact noZero_append (noZero_spelling (isFixed_of_isSign hop)) h.noZero

theorem printed_binary {op : Token.Kind} (hop : op.isInfix = true) (hl : Printed (.expr (.left op) l) s)
    (hr : Printed (.expr (.right op) r) s') :
    Printed (.expr .free (.binary (fixed op) op.spelling l r)) (s ++ " " ++ op.spelling ++ " " ++ s') := by
  have hspace : 0 ∉ ofString " " := by decide
  have hleft : 0 ∉ ofString (s ++ " " ++ op.spelling) :=
    noZero_append (noZero_append hl.noZero hspace) (noZero_spelling (isFixed_of_isInfix hop))
  constructor
  · rw [tokens_space hleft, tokens_space hl.noZero, tokens_spelling (isFixed_of_isInfix hop), List.append_assoc]
    exact .plain rfl (.binary hop hl.renders hr.renders)
  · exact noZero_append (noZero_append hleft hspace) hr.noZero

theorem printed_call {args : List Expr} (hf : Printed (.expr .callee e) s) (hargs : Printed (.arguments args) s') :
    Printed (.expr pos (.call (fixed .openParen) e args)) (s ++ "(" ++ s' ++ ")") := by
  have hbare : pos.needsParens (.call (fixed .openParen) e args) = false := by cases pos <;> rfl
  have hopen : 0 ∉ ofString (s ++ Token.Kind.openParen.spelling ++ s') :=
    noZero_append (noZero_append hf.noZero (by decide)) hargs.noZero
  constructor
  · show Renders _ (tokens (ofString (s ++ Token.Kind.openParen.spelling ++ s' ++ Token.Kind.closeParen.spelling)))
    rw [tokens_closed rfl hopen, tokens_delimiter rfl hf.noZero, List.append_assoc, List.cons_append]
    exact .plain hbare (.call hf.renders hargs.renders)
  · exact noZero_append hopen (by decide)

theorem printed_noArguments : Printed (.arguments []) "" := by
  refine ⟨?_, by decide⟩
  rw [Source.tokens_of_next?_none rfl]
  exact .noArguments

theorem printed_oneArgument (h : Printed (.expr .free e) s) : Printed (.arguments [e]) s := by
  refine ⟨?_, h.noZero⟩
  rw [← List.append_nil (tokens (ofString s))]
  exact .someArguments h.renders .noMoreArguments

theorem printed_moreArguments {e' : Expr} {es : List Expr} (h : Printed (.expr .free e) s)
    (hes : Printed (.arguments (e' :: es)) s') : Printed (.arguments (e :: e' :: es)) (s ++ ", " ++ s') := by
  constructor
  · have hcomma : ", " = Token.Kind.comma.spelling ++ " " := rfl
    rw [hcomma, ← String.append_assoc, tokens_space (noZero_append h.noZero (by decide)), tokens_closed rfl h.noZero,
      List.append_assoc, List.singleton_append]
    have hmore := hes.renders
    generalize tokens (ofString s') = ts at hmore ⊢
    cases hmore with
    | someArguments he' hes' => exact .someArguments h.renders (.oneMoreArgument he' hes')
  · exact noZero_append (noZero_append h.noZero (by decide)) hes.noZero

end

/-! ## Texts of statements -/

/-- The text of a statement ends in a semicolon and is read as a rendering. -/
structure PrintedStmt (s : Stmt) (body : String) : Prop where
  text_eq : s.text = body ++ Token.Kind.semicolon.spelling
  noZero : 0 ∉ ofString body
  renders : Renders (.stmt s) (tokens (ofString body) ++ [fixed .semicolon])

theorem printed_bind {x : String} {e : Expr} (hx : Token.IsName x) (h : Printed (.expr .free e) e.text) :
    PrintedStmt (.bind (fixed .kwLet) (occurrence x) e)
      (Token.Kind.kwLet.spelling ++ " " ++ x ++ " " ++ Token.Kind.assign.spelling ++ " " ++ e.text) := by
  have hspace : 0 ∉ ofString " " := by decide
  have hname : 0 ∉ ofString (Token.Kind.kwLet.spelling ++ " " ++ x) :=
    noZero_append (by decide) (lexical_nameToken hx).2
  have hequals : 0 ∉ ofString (Token.Kind.kwLet.spelling ++ " " ++ x ++ " " ++ Token.Kind.assign.spelling) :=
    noZero_append (noZero_append hname hspace) (by decide)
  have htokens : tokens (ofString x) = [nameToken x] := (lexical_nameToken hx).tokens_eq
  refine ⟨?_, noZero_append (noZero_append hequals hspace) h.noZero, ?_⟩
  · have hassign : " = " = " " ++ (Token.Kind.assign.spelling ++ " ") := rfl
    simp only [Stmt.text, hassign, String.append_assoc]
    rfl
  · rw [tokens_space hequals, tokens_space hname, tokens_space (noZero_spelling rfl), tokens_spelling rfl, htokens,
      tokens_spelling rfl]
    exact .bind hx h.renders

theorem printed_ret {e : Expr} (h : Printed (.expr .free e) e.text) :
    PrintedStmt (.ret (fixed .kwReturn) e) (Token.Kind.kwReturn.spelling ++ " " ++ e.text) := by
  refine ⟨rfl, noZero_append (by decide) h.noZero, ?_⟩
  rw [tokens_space (noZero_spelling rfl), tokens_spelling rfl]
  exact .ret h.renders

theorem printed_retNothing :
    PrintedStmt (.ret (fixed .kwReturn) .missing) (Token.Kind.kwReturn.spelling ++ " " ++ "") := by
  refine ⟨rfl, by decide, ?_⟩
  rw [tokens_space (noZero_spelling rfl), tokens_spelling rfl, Source.tokens_of_next?_none rfl]
  exact .retNothing

/-! ## Trees of a text -/

/-- What is printed of a part is read back. -/
def Part.ReadsBack : Part → Prop
  | .stmts p => (∀ s ∈ p, s.isPlain = true) → (∀ s ∈ p.dropLast, s.isClosed = true) →
      ∃ q, List.Forall₂ Stmt.Agrees q p ∧
        ∀ fuel, Parser.Gives (Parser.statementsToEnd fuel) (tokens (ofString (Stmt.concatText p))) q []
  | .stmt (.expr _ e) => e.isPlain = true → Printed (.expr .free e) e.text
  | .stmt s => s.isPlain = true → ∃ body, PrintedStmt s body
  | .expr e => e.isPlain = true → ∀ pos, Printed (.expr pos e) e.text
  | .arguments es => Expr.allPlain es = true → Printed (.arguments es) (", ".intercalate (Expr.texts es))
  | .block _ | .parameters _ => True

theorem readsBack_noStmts : (Part.stmts []).ReadsBack := by
  intro _ _
  refine ⟨[], .nil, fun fuel => ?_⟩
  rw [Stmt.concatText, Source.tokens_of_next?_none rfl]
  exact Parser.readBack_noStmts.2 fuel

/-- A statement with its semicolon, and what follows it. -/
theorem readsBack_closed {s : Stmt} {ss : List Stmt} {body : String} (hs : PrintedStmt s body)
    (hss : (Part.stmts ss).ReadsBack) : (Part.stmts (s :: ss)).ReadsBack := by
  intro hplain hclosed
  obtain ⟨q, hq, hgives⟩ := hss (fun x hx => hplain x (List.mem_cons_of_mem s hx)) fun x hx => by
    cases ss with
    | nil => exact absurd hx (by simp)
    | cons _ _ => exact hclosed x (List.mem_cons_of_mem s hx)
  refine ⟨s :: q, .cons (.refl s) hq, fun fuel => ?_⟩
  have htokens : tokens (ofString (Stmt.concatText (s :: ss))) =
      tokens (ofString body) ++ [fixed .semicolon] ++ tokens (ofString (Stmt.concatText ss)) := by
    rw [Stmt.concatText, hs.text_eq, tokens_delimiter rfl hs.noZero, List.append_assoc, List.singleton_append]
  obtain ⟨t, b, hstart, -, hfrom⟩ := Parser.readBack_of_renders hs.renders
  rw [htokens, hstart]
  exact Parser.gives_statementsToEnd (fun fuel => hfrom fuel _) hgives fuel

/-- An expression without a semicolon, at the end. -/
theorem Printed.gives {e : Expr} {s : String} (h : Printed (.expr .free e) s) :
    ∃ t, ∀ fuel, Parser.Gives (Parser.statementsToEnd fuel) (tokens (ofString s)) [.expr t e] [] := by
  obtain ⟨t, a, hstart, -⟩ := Parser.head_of_renders h.renders
  have hrenders := h.renders
  rw [hstart] at hrenders ⊢
  exact ⟨t, Parser.gives_lastExpr hrenders⟩

theorem readsBack_lastExpr {t : Token} {e : Expr} (h : Printed (.expr .free e) e.text) :
    (Part.stmts [.expr t e]).ReadsBack := by
  intro _ _
  obtain ⟨t', hgives⟩ := h.gives
  refine ⟨[.expr t' e], .cons (.expr t' t e) .nil, ?_⟩
  rw [Stmt.concatText, Stmt.concatText, Stmt.text, String.append_empty]
  exact hgives

theorem readsBack_moreStmts {s : Stmt} {ss : List Stmt} (hs : (Part.stmt s).ReadsBack)
    (hss : (Part.stmts ss).ReadsBack) : (Part.stmts (s :: ss)).ReadsBack := by
  intro hplain hclosed
  have hplain' := hplain s List.mem_cons_self
  cases s with
  | bind t x e =>
    obtain ⟨body, hbody⟩ := hs hplain'
    exact readsBack_closed hbody hss hplain hclosed
  | ret t e =>
    obtain ⟨body, hbody⟩ := hs hplain'
    exact readsBack_closed hbody hss hplain hclosed
  | expr t e =>
    cases ss with
    | nil => exact readsBack_lastExpr (hs hplain') hplain hclosed
    | cons s' ss => exact absurd (hclosed (.expr t e) List.mem_cons_self) (by simp [Stmt.isClosed])
  | block b => exact absurd hplain' (by simp [Stmt.isPlain])

theorem Spells.readsBack {p : Part} {ts : List Token} (h : Spells p ts) (hts : ∀ t ∈ ts, t.Genuine) : p.ReadsBack := by
  induction h with
  | noStmts => exact readsBack_noStmts
  | moreStmts _ _ ihs ihss =>
    rw [List.forall_mem_append] at hts
    exact readsBack_moreStmts (ihs hts.1) (ihss hts.2)
  | bind hk hn _ _ _ ih =>
    simp only [List.forall_mem_cons, List.forall_mem_append] at hts
    obtain ⟨hlet, hname, -, he, -⟩ := hts
    obtain rfl := hlet.eq_fixed hk rfl
    obtain ⟨x, hx, rfl⟩ := hname.isName hn
    intro hplain
    exact ⟨_, printed_bind hx (ih he hplain .free)⟩
  | retNothing hk _ =>
    obtain rfl := (hts _ List.mem_cons_self).eq_fixed hk rfl
    exact fun _ => ⟨_, printed_retNothing⟩
  | ret hk h hs ih =>
    simp only [List.forall_mem_cons, List.forall_mem_append] at hts
    obtain rfl := hts.1.eq_fixed hk rfl
    intro hplain
    have hpresent := Parser.isPresent_of_spells h
    exact ⟨_, printed_ret (ih hts.2.1 (by simpa [Stmt.isPlain, hpresent] using hplain) .free)⟩
  | exprStmt _ _ ih =>
    rw [← List.cons_append, List.forall_mem_append] at hts
    exact fun hplain => ih hts.1 hplain .free
  | block | noParameters | oneParameter | moreParameters => trivial
  | name ht =>
    obtain ⟨x, hx, rfl⟩ := (hts _ List.mem_cons_self).isName ht
    intro _ pos
    rw [Expr.text]
    exact printed_token (.name hx) (by cases pos <;> rfl)
  | number ht hn =>
    obtain ⟨d, hd, rfl⟩ := (hts _ List.mem_cons_self).isNumeral ht
    have hle := digitsValue_le_of_integer? hn
    obtain rfl := Option.some.inj ((integer?_of_le hle).symm.trans hn)
    intro _ pos
    rw [Expr.text]
    exact printed_token (.number hd hle) (by cases pos <;> rfl)
  | @truth t b ht =>
    obtain rfl := (hts _ List.mem_cons_self).eq_fixed ht (by cases b <;> rfl)
    intro _ pos
    rw [Expr.text]
    exact printed_token (e := .bool (truthToken b) b) .truth (by cases pos <;> rfl)
  | unary ht _ ih =>
    simp only [List.forall_mem_cons] at hts
    obtain ⟨op, rfl⟩ : ∃ op, _ = fixed op := ⟨_, hts.1.eq_fixed rfl (isFixed_of_isSign ht)⟩
    intro hplain pos
    have hprinted := @printed_unary _ _ op ht (ih hts.2 hplain .operand)
    simpa only [Expr.text, fixed, String.append_assoc] using printed_parens hprinted
  | binary _ ht _ ihl ihr =>
    simp only [List.forall_mem_cons, List.forall_mem_append] at hts
    obtain ⟨op, rfl⟩ : ∃ op, _ = fixed op := ⟨_, hts.2.1.eq_fixed rfl (isFixed_of_isInfix ht)⟩
    intro hplain pos
    simp only [Expr.isPlain, Bool.and_eq_true] at hplain
    have hprinted := @printed_binary _ _ _ _ op ht (ihl hts.1 hplain.1 (.left op)) (ihr hts.2.2 hplain.2 (.right op))
    simpa only [Expr.text, fixed, String.append_assoc] using printed_parens hprinted
  | group _ _ _ ih =>
    simp only [List.forall_mem_cons, List.forall_mem_append] at hts
    exact ih hts.2.1
  | ifThen | ifElse | fn =>
    intro hplain
    exact absurd hplain (by simp [Expr.isPlain])
  | call _ ho _ _ ihf iha =>
    simp only [List.forall_mem_cons, List.forall_mem_append] at hts
    obtain rfl := hts.2.1.eq_fixed ho rfl
    intro hplain pos
    simp only [Expr.isPlain, Bool.and_eq_true] at hplain
    rw [Expr.text]
    exact printed_call (ihf hts.1 hplain.1 .callee) (iha hts.2.2.1 hplain.2)
  | noArguments => exact fun _ => printed_noArguments
  | oneArgument _ ih =>
    intro hplain
    simp only [Expr.allPlain, Bool.and_true] at hplain
    rw [Expr.texts, Expr.texts, String.intercalate_singleton]
    exact printed_oneArgument (ih hts hplain .free)
  | moreArguments _ _ _ ihe ihes =>
    simp only [List.forall_mem_cons, List.forall_mem_append] at hts
    intro hplain
    rw [Expr.allPlain, Bool.and_eq_true] at hplain
    rw [Expr.texts, String.intercalate_cons_of_ne_nil (by simp [Expr.texts])]
    exact printed_moreArguments (ihe hts.1 hplain.1 .free) (ihes hts.2.2 hplain.2)

end Grammar

/-! ## Programs -/

open Grammar LetLang.Parser

/-- The text of an expression is a program of one statement. -/
theorem Program.ofSource_printed {e : Expr} {s : String} (h : Printed (.expr .free e) s) :
    ∃ t, Program.ofSource (.ofString s) = ([.expr t e], []) := by
  obtain ⟨t, hgives⟩ := h.gives
  exact ⟨t, Program.parse_of_gives hgives⟩

/-- **The printed form is read as the tree it was printed from**, where all statements but the last are bindings and
`return`s, and all expressions are made of names, literals, operators and calls. Only the token that an expression
statement begins with may be another one: a parenthesis that was not there before, or none that was. -/
theorem Program.ofSource_text (src : Source) (hclean : (Program.ofSource src).2 = [])
    (hplain : ∀ s ∈ (Program.ofSource src).1, s.isPlain = true)
    (hclosed : ∀ s ∈ (Program.ofSource src).1.dropLast, s.isClosed = true) :
    let p := (Program.ofSource src).1
    let again := Program.ofSource (.ofString p.text)
    again.2 = [] ∧ List.Forall₂ Stmt.Agrees again.1 p ∧ again.1.text = p.text := by
  intro p again
  have hspells : Spells (.stmts p) src.tokens := Program.spells_tokens hclean
  obtain ⟨q, hq, hgives⟩ := hspells.readsBack (Token.genuine_of_munched (Source.munched_readable src)) hplain hclosed
  have hagain : again = (q, []) := Program.parse_of_gives hgives
  rw [hagain]
  exact ⟨rfl, hq, Program.text_eq_of_agrees hq⟩

/-- A text with needless parentheses and blanks, and without some of the semicolons. -/
def looseText : Source :=
  .ofString "let s = -a + f(1, !b)(x) * 2; return;\nlet y = (g)(a == b != true, h()) return s; -((y))(3) - (2 - -1)"

/-- Its last statement begins with a parenthesis when it is printed, and with the sign when it is not. -/
theorem Program.ofSource_text_loose :
    let p := (Program.ofSource looseText).1
    let printed := "let s = ((-a) + (f(1, (!b))(x) * 2));return ;" ++
      "let y = g(((a == b) != true), h());return s;((-y(3)) - (2 - (-1)))"
    p.map (fun s => s.token.literal) = ["let", "return", "let", "return", "-"] ∧ p.text = printed ∧
      (Program.ofSource (.ofString printed)).2 = [] ∧
      List.Forall₂ Stmt.Agrees (Program.ofSource (.ofString printed)).1 p ∧
      (Program.ofSource (.ofString printed)).1.map (fun s => s.token.literal) =
        ["let", "return", "let", "return", "("] ∧
      (Program.ofSource (.ofString printed)).1.text = printed := by
  intro p printed
  have htext : p.text = printed := by decide +kernel
  obtain ⟨hclean, hagrees, hagain⟩ := Program.ofSource_text looseText (by decide +kernel) (by decide +kernel)
    (by decide +kernel)
  rw [htext] at hclean hagrees hagain
  exact ⟨by decide +kernel, htext, hclean, hagrees, by decide +kernel, hagain⟩

end LetLang
