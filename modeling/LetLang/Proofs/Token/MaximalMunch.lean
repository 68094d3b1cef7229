import LetLang.Proofs.Token.Separation

/-!
# Maximal munch

What the tokens of a text should be can be said without a lexer. `Lexeme` lists the byte strings that stand for a
token, class by class; `Munched` cuts a text into blanks and lexemes, each **the longest one that starts there**.
Nothing is lost in such a cut: what is not in a lexeme is blank.

There is only one such cut (`Munched.unique`), and the lexer makes it (`tokens_maximalMunch`). The text ends at its
first zero byte, also when that stands inside what would be a word or an operator.

Two facts about `munch` carry the argument: what it splits off is a lexeme (`lexeme_munch`), and no longer one starts
there (`longest_munch`). The second is a question of the four shapes that lexemes have.
-/

set_option autoImplicit false

namespace LetLang

namespace Source

/-! ## Lexemes -/

/-- A byte that can stand nowhere in a text: no letter, no digit, no blank, no symbol, and not the zero byte. -/
def IsForeign (b : UInt8) : Prop :=
  b ≠ 0 ∧ isBlank b = false ∧ isLetter b = false ∧ isDigit b = false ∧ ∀ k ∈ Token.symbols, ofString k.name ≠ [b]

/-- The byte strings that stand for a token, and that token: its literal is the text that has those bytes. Only a
foreign byte need not be a text; it is shown as the character with its number. -/
inductive Lexeme : List UInt8 → Token → Prop where
  /-- A reserved word has a kind of its own, all others are names. -/
  | word {w : List UInt8} {s : String} : w ≠ [] → (∀ b ∈ w, isLetter b = true) → ofString s = w →
      Lexeme w ⟨.ofWord s, s⟩
  | number {w : List UInt8} {s : String} : w ≠ [] → (∀ b ∈ w, isDigit b = true) → ofString s = w →
      Lexeme w ⟨.int, s⟩
  /-- Operators and delimiters; `==` and `!=` are the two with more than one byte. -/
  | symbol {k : Token.Kind} : k ∈ Token.symbols → Lexeme (ofString k.name) ⟨k, k.name⟩
  | illegal {b : UInt8} : IsForeign b → Lexeme [b] ⟨.illegal, String.ofList [Char.ofNat b.toNat]⟩

/-- No longer lexeme than `w` starts where `w ++ rest` does. -/
def Longest (w rest : List UInt8) : Prop :=
  ∀ w' t', Lexeme w' t' → w' <+: w ++ rest → w'.length ≤ w.length

/-- The text is cut into blanks and lexemes for these tokens, each as long as can be. -/
inductive Munched : Source → List Token → Prop where
  | done {gap : List UInt8} : (∀ b ∈ gap, isBlank b = true) → Munched gap []
  | token {gap w rest : List UInt8} {t : Token} {ts : List Token} : (∀ b ∈ gap, isBlank b = true) → Lexeme w t →
      Longest w rest → Munched rest ts → Munched (gap ++ (w ++ rest)) (t :: ts)

/-! ## Bytes and their text -/

theorem toNat_char (b : UInt8) : (Char.ofNat b.toNat).toNat = b.toNat := by
  have hvalid : b.toNat.isValidChar := Or.inl (Nat.lt_trans b.toNat_lt (by decide))
  rw [Char.ofNat, dif_pos hvalid]
  rfl

/-- Bytes of ASCII are the bytes of their text. -/
theorem ofString_text {w : List UInt8} (h : ∀ b ∈ w, b.toNat ≤ 127) : ofString (text w) = w := by
  have hchars : (text w).toList = w.map fun b => Char.ofNat b.toNat := by rw [text, String.toList_ofList]
  have hascii : ∀ c ∈ (text w).toList, c.toNat ≤ 127 := by
    rw [hchars]
    intro c hc
    obtain ⟨b, hb, rfl⟩ := List.mem_map.mp hc
    rw [toNat_char]
    exact h b hb
  rw [ofString_of_ascii hascii, hchars, List.map_map]
  refine (List.map_congr_left fun b _ => ?_).trans (List.map_id _)
  show UInt8.ofNat (Char.ofNat b.toNat).toNat = b
  rw [toNat_char, UInt8.ofNat_toNat]

theorem ofString_inj {s s' : String} (h : ofString s = ofString s') : s = s' := by
  rw [ofString, ofString] at h
  exact String.toByteArray_inj.mp (ByteArray.ext (Array.toList_inj.mp h))

theorem toNat_le_of_isLetter {b : UInt8} (h : isLetter b = true) : b.toNat ≤ 127 := by
  simp only [isLetter, Bool.or_eq_true, Bool.and_eq_true, decide_eq_true_eq, UInt8.le_iff_toNat_le, beq_iff_eq,
    UInt8.reduceToNat] at h
  rcases h with h | rfl
  · omega
  · decide

theorem toNat_le_of_isDigit {b : UInt8} (h : isDigit b = true) : b.toNat ≤ 127 := by
  simp only [isDigit, Bool.and_eq_true, decide_eq_true_eq, UInt8.le_iff_toNat_le, UInt8.reduceToNat] at h
  omega

/-- A single byte is a symbol, or no symbol has it for its text. -/
theorem ofSymbol_cases (b : UInt8) :
    (∃ k ∈ Token.symbols, ofString k.name = [b] ∧ Token.Kind.ofSymbol (text [b]) = k ∧ k.name = text [b]) ∨
      ((∀ k ∈ Token.symbols, ofString k.name ≠ [b]) ∧ Token.Kind.ofSymbol (text [b]) = .illegal) := by
  have hascii : ∀ k ∈ Token.symbols, ∀ c ∈ k.name.toList, c.toNat ≤ 127 := by
    have hall : (Token.symbols.all fun k => k.name.toList.all fun c => c.toNat ≤ 127) = true := by decide
    simpa only [List.all_eq_true, decide_eq_true_eq] using hall
  cases hfind : Token.symbols.find? fun k => k.name == text [b] with
  | some k =>
    have hk := List.mem_of_find?_eq_some hfind
    have hname : k.name = text [b] := beq_iff_eq.mp (List.find?_some hfind :)
    have hb : b.toNat ≤ 127 := by
      rw [← toNat_char]
      exact hascii k hk _ (by rw [hname, text, String.toList_ofList]; exact List.mem_singleton_self _)
    have hbytes : ofString k.name = [b] := by
      rw [hname, ofString_text fun c hc => List.mem_singleton.mp hc ▸ hb]
    exact .inl ⟨k, hk, hbytes, by rw [Token.Kind.ofSymbol, hfind]; rfl, hname⟩
  | none =>
    refine .inr ⟨fun k hk hbytes => ?_, by rw [Token.Kind.ofSymbol, hfind]; rfl⟩
    have hname : k.name = text [b] := by rw [← hbytes, text_ofString (hascii k hk)]
    exact List.find?_eq_none.mp hfind k hk (beq_iff_eq.mpr hname)

/-! ## Shapes -/

/-- Runs of letters, runs of digits, one of the two joined operators, or a single byte. -/
inductive Shape : List UInt8 → Prop where
  | letters {w : List UInt8} : w ≠ [] → (∀ b ∈ w, isLetter b = true) → Shape w
  | digits {w : List UInt8} : w ≠ [] → (∀ b ∈ w, isDigit b = true) → Shape w
  | joined {b : UInt8} : joinsEquals b = true → Shape [b, 61]
  | single {b : UInt8} : b ≠ 0 → isBlank b = false → Shape [b]

theorem Lexeme.shape {w : List UInt8} {t : Token} (h : Lexeme w t) : Shape w := by
  cases h with
  | word hne hw _ => exact .letters hne hw
  | number hne hw _ => exact .digits hne hw
  | @symbol k hk =>
    simp only [Token.symbols, List.mem_cons, List.not_mem_nil, or_false] at hk
    rcases hk with rfl | rfl | rfl | rfl | rfl | rfl | rfl | rfl | rfl | rfl | rfl | rfl | rfl | rfl | rfl | rfl
    case inr.inr.inr.inr.inr.inr.inr.inr.inl => exact .joined (b := 61) rfl
    case inr.inr.inr.inr.inr.inr.inr.inr.inr.inl => exact .joined (b := 33) rfl
    all_goals exact .single (by decide) rfl
  | illegal hb => exact .single hb.1 hb.2.1

/-- A lexeme starts with a byte that is not blank. -/
theorem Shape.exists_cons {w : List UInt8} (h : Shape w) : ∃ b bs, w = b :: bs ∧ isBlank b = false := by
  cases h with
  | letters hne hw =>
    obtain ⟨b, bs, rfl⟩ := List.exists_cons_of_ne_nil hne
    exact ⟨b, bs, rfl, isBlank_of_isLetter (hw b List.mem_cons_self)⟩
  | digits hne hw =>
    obtain ⟨b, bs, rfl⟩ := List.exists_cons_of_ne_nil hne
    exact ⟨b, bs, rfl, isBlank_of_isDigit (hw b List.mem_cons_self)⟩
  | @joined b hb =>
    simp only [joinsEquals, Bool.or_eq_true, beq_iff_eq] at hb
    rcases hb with rfl | rfl <;> exact ⟨_, _, rfl, rfl⟩
  | single _ hb => exact ⟨_, _, rfl, hb⟩

/-- The token of a lexeme is computed from its bytes. -/
theorem Lexeme.eq_ofLexeme {w : List UInt8} {t : Token} (h : Lexeme w t) : t = .ofLexeme w := by
  cases h with
  | @word w s hne hw hs =>
    obtain rfl : s = text w := ofString_inj (hs.trans (ofString_text fun b hb => toNat_le_of_isLetter (hw b hb)).symm)
    obtain ⟨b, bs, rfl⟩ := List.exists_cons_of_ne_nil hne
    rw [Token.ofLexeme, Token.Kind.ofLexeme, if_pos (hw b List.mem_cons_self)]
  | @number w s hne hw hs =>
    obtain rfl : s = text w := ofString_inj (hs.trans (ofString_text fun b hb => toNat_le_of_isDigit (hw b hb)).symm)
    obtain ⟨b, bs, rfl⟩ := List.exists_cons_of_ne_nil hne
    have hb := hw b List.mem_cons_self
    rw [Token.ofLexeme, Token.Kind.ofLexeme, if_neg (by simp [isLetter_of_isDigit hb]), if_pos hb]
  | @symbol k hk =>
    have hall : ∀ k ∈ Token.symbols, (⟨k, k.name⟩ : Token) = .ofLexeme (ofString k.name) := by decide
    exact hall k hk
  | @illegal b hb =>
    obtain ⟨-, -, hletter, hdigit, hsymbol⟩ := hb
    have hkind : Token.Kind.ofSymbol (text [b]) = .illegal := by
      rcases ofSymbol_cases b with ⟨k, hk, hbytes, -⟩ | ⟨-, h⟩
      · exact absurd hbytes (hsymbol k hk)
      · exact h
    rw [Token.ofLexeme, Token.Kind.ofLexeme, if_neg (by simp [hletter]), if_neg (by simp [hdigit]), hkind]
    rfl

/-! ## What is split off -/

theorem munch_append (b : UInt8) (rest : List UInt8) : (munch b rest).1 ++ (munch b rest).2 = b :: rest := by
  unfold munch
  split
  · rw [List.cons_append, List.takeWhile_append_dropWhile]
  · split
    · rw [List.cons_append, List.takeWhile_append_dropWhile]
    · split
      · rfl
      · split <;> rfl

theorem forall_takeWhile {b : UInt8} {p : UInt8 → Bool} (hb : p b = true) (rest : List UInt8) :
    ∀ c ∈ b :: rest.takeWhile p, p c = true := by
  intro c hc
  rcases List.mem_cons.mp hc with rfl | hc
  · exact hb
  · exact List.all_eq_true.mp List.all_takeWhile c hc

theorem lexeme_single {b : UInt8} (h0 : b ≠ 0) (hblank : isBlank b = false) (hletter : isLetter b = false)
    (hdigit : isDigit b = false) : Lexeme [b] (.ofLexeme [b]) := by
  have hkind : Token.Kind.ofLexeme [b] = .ofSymbol (text [b]) := by
    rw [Token.Kind.ofLexeme, if_neg (by simp [hletter]), if_neg (by simp [hdigit])]
  rw [Token.ofLexeme, hkind]
  rcases ofSymbol_cases b with ⟨k, hk, hbytes, hof, hname⟩ | ⟨hnone, hof⟩
  · rw [hof, ← hname, ← hbytes]
    exact .symbol hk
  · rw [hof]
    exact .illegal ⟨h0, hblank, hletter, hdigit, hnone⟩

/-- **What is split off a text is a lexeme.** -/
theorem lexeme_munch {b : UInt8} (h0 : b ≠ 0) (hblank : isBlank b = false) (rest : List UInt8) :
    Lexeme (munch b rest).1 (.ofLexeme (munch b rest).1) := by
  unfold munch
  split
  · next hb =>
    have hall := forall_takeWhile hb rest
    rw [Token.ofLexeme, Token.Kind.ofLexeme, if_pos hb]
    exact .word (by simp) hall (ofString_text fun c hc => toNat_le_of_isLetter (hall c hc))
  · next hletter =>
    split
    · next hb =>
      have hall := forall_takeWhile hb rest
      rw [Token.ofLexeme, Token.Kind.ofLexeme, if_neg hletter, if_pos hb]
      exact .number (by simp) hall (ofString_text fun c hc => toNat_le_of_isDigit (hall c hc))
    · next hdigit =>
      have hsingle := lexeme_single h0 hblank (Bool.eq_false_iff.mpr hletter) (Bool.eq_false_iff.mpr hdigit)
      split
      · exact hsingle
      · split
        · next hjoins =>
          simp only [joinsEquals, Bool.and_eq_true, Bool.or_eq_true, beq_iff_eq] at hjoins
          obtain ⟨rfl | rfl, rfl⟩ := hjoins
          · exact Lexeme.symbol (k := .equal) (by decide)
          · exact Lexeme.symbol (k := .notEqual) (by decide)
        · exact hsingle

theorem length_le_takeWhile {p : UInt8 → Bool} {w rest : List UInt8} (hw : ∀ b ∈ w, p b = true) (h : w <+: rest) :
    w.length ≤ (rest.takeWhile p).length := by
  obtain ⟨more, rfl⟩ := h
  rw [List.takeWhile_append_of_pos hw, List.length_append]
  exact Nat.le_add_right _ _

theorem length_munch_pos (b : UInt8) (rest : List UInt8) : 0 < (munch b rest).1.length := by
  unfold munch
  split
  · exact Nat.succ_pos _
  · split
    · exact Nat.succ_pos _
    · split
      · exact Nat.one_pos
      · split <;> exact Nat.succ_pos _

/-- **No longer lexeme starts there.** -/
theorem longest_munch (b : UInt8) (rest : List UInt8) : Longest (munch b rest).1 (munch b rest).2 := by
  rw [Longest, munch_append]
  intro w t hw hstart
  obtain ⟨c, bs, rfl, -⟩ := hw.shape.exists_cons
  obtain ⟨rfl, hbs⟩ := List.cons_prefix_cons.mp hstart
  cases hw.shape with
  | letters _ hall =>
    unfold munch
    rw [if_pos (hall c List.mem_cons_self)]
    exact Nat.succ_le_succ (length_le_takeWhile (fun d hd => hall d (List.mem_cons_of_mem _ hd)) hbs)
  | digits _ hall =>
    have hc := hall c List.mem_cons_self
    unfold munch
    rw [if_neg (by simp [isLetter_of_isDigit hc]), if_pos hc]
    exact Nat.succ_le_succ (length_le_takeWhile (fun d hd => hall d (List.mem_cons_of_mem _ hd)) hbs)
  | joined hc =>
    obtain ⟨more, rfl⟩ := hbs
    have hc' : c = 61 ∨ c = 33 := by simpa [joinsEquals] using hc
    rcases hc' with rfl | rfl <;> exact Nat.le_refl _
  | single _ _ => exact length_munch_pos c rest

/-! ## There is one cut -/

theorem dropWhile_gap {gap w : List UInt8} (hgap : ∀ b ∈ gap, isBlank b = true) (hw : Shape w) (rest : List UInt8) :
    (gap ++ (w ++ rest)).dropWhile isBlank = w ++ rest := by
  obtain ⟨b, bs, rfl, hb⟩ := hw.exists_cons
  rw [List.dropWhile_append_of_pos hgap, List.cons_append, List.dropWhile_cons_of_neg (by simp [hb])]

theorem Longest.length_le {w w' rest rest' : List UInt8} {t : Token} (h : Longest w' rest') (hw : Lexeme w t)
    (heq : w ++ rest = w' ++ rest') : w.length ≤ w'.length :=
  h w t hw ⟨rest, heq⟩

/-- In blanks alone there is no lexeme to be found. -/
theorem Munched.eq_nil {gap : List UInt8} {ts : List Token} (h : Munched gap ts) (hgap : ∀ b ∈ gap, isBlank b = true) :
    ts = [] := by
  cases h with
  | done _ => rfl
  | @token gap' w rest t ts hgap' hw _ _ =>
    have hdrop := dropWhile_gap hgap' hw.shape rest
    rw [List.dropWhile_eq_nil_iff.mpr hgap] at hdrop
    obtain ⟨b, bs, rfl, -⟩ := hw.shape.exists_cons
    cases hdrop

/-- **A text has at most one such cut**: a lexeme begins where the blanks end, and it ends where none that begins
there is longer. -/
theorem Munched.unique {src : Source} {ts ts' : List Token} (h : Munched src ts) (h' : Munched src ts') : ts = ts' := by
  induction h generalizing ts' with
  | done hgap => exact (h'.eq_nil hgap).symm
  | @token gap w rest t ts hgap hw hlong hrest ih =>
    generalize hsrc : gap ++ (w ++ rest) = src at h'
    cases h' with
    | done hgap' => exact (Munched.token hgap hw hlong hrest).eq_nil (hsrc ▸ hgap')
    | @token gap' w' rest' t' ts' hgap' hw' hlong' hrest' =>
      have hdrop : w ++ rest = w' ++ rest' := by
        rw [← dropWhile_gap hgap hw.shape rest, hsrc, dropWhile_gap hgap' hw'.shape]
      have hlen := Nat.le_antisymm (hlong'.length_le hw hdrop) (hlong.length_le hw' hdrop.symm)
      obtain ⟨rfl, rfl⟩ := List.append_inj hdrop hlen
      rw [hw.eq_ofLexeme, hw'.eq_ofLexeme, ih hrest']

/-! ## The lexer makes it -/

/-- The part of a text that is read. -/
def readable (src : Source) : Source := src.takeWhile (· != 0)

theorem isBlank_of_dropWhile {src tail : Source} {b : UInt8} (h : src.dropWhile isBlank = b :: tail) :
    isBlank b = false := by
  have hhead := List.head?_dropWhile_not isBlank src
  simpa [h] using hhead

/-- One token: the blanks before it, its lexeme, and what is left. -/
theorem next?_munched {src rest : Source} {t : Token} (h : next? src = some (t, rest)) :
    ∃ gap w, src = gap ++ (w ++ rest) ∧ (∀ b ∈ gap, isBlank b = true) ∧ Lexeme w t ∧ Longest w rest := by
  have hsrc := List.takeWhile_append_dropWhile (p := isBlank) (l := src)
  have hgap : ∀ b ∈ src.takeWhile isBlank, isBlank b = true := List.all_eq_true.mp List.all_takeWhile
  unfold next? at h
  split at h
  · cases h
  · next b tail hd =>
    split at h
    · cases h
    · next h0 =>
      obtain ⟨rfl, rfl⟩ := Prod.mk.inj (Option.some.inj h)
      refine ⟨src.takeWhile isBlank, (munch b tail).1, ?_, hgap,
        lexeme_munch (by simpa using h0) (isBlank_of_dropWhile hd) tail, longest_munch b tail⟩
      rw [munch_append, ← hd, hsrc]

theorem ne_zero_of_isBlank {b : UInt8} (h : isBlank b = true) : (b != 0) = true := by
  simp only [isBlank, Bool.or_eq_true, beq_iff_eq] at h
  rcases h with ((rfl | rfl) | rfl) | rfl <;> rfl

theorem Shape.ne_zero {w : List UInt8} (h : Shape w) : ∀ b ∈ w, (b != 0) = true := by
  intro b hb
  rw [bne_iff_ne]
  rintro rfl
  cases h with
  | letters _ hall => exact absurd (hall 0 hb) (by decide)
  | digits _ hall => exact absurd (hall 0 hb) (by decide)
  | @joined c hc =>
    obtain rfl : 0 = c := by simpa using hb
    exact absurd hc (by decide)
  | single h0 _ => exact h0 (List.mem_singleton.mp hb).symm

/-- Where there is no token only blanks are left to be read. -/
theorem isBlank_readable {src : Source} (h : next? src = none) : ∀ b ∈ src.readable, isBlank b = true := by
  have hgap : ∀ b ∈ src.takeWhile isBlank, isBlank b = true := List.all_eq_true.mp List.all_takeWhile
  have hrest : (src.dropWhile isBlank).takeWhile (· != 0) = [] := by
    unfold next? at h
    split at h
    · next hd => rw [hd]; rfl
    · next b tail hd =>
      split at h
      · next h0 =>
        obtain rfl : b = 0 := beq_iff_eq.mp h0
        rw [hd]
        rfl
      · cases h
  have hread : src.readable = src.takeWhile isBlank := by
    rw [readable, ← List.takeWhile_append_dropWhile (p := isBlank) (l := src),
      List.takeWhile_append_of_pos fun b hb => ne_zero_of_isBlank (hgap b hb), hrest, List.append_nil,
      List.takeWhile_append_dropWhile]
  rw [hread]
  exact hgap

theorem munched_readable : ∀ src : Source, Munched src.readable src.tokens := by
  intro src
  induction src using tokens.induct with
  | case1 src h =>
    rw [tokens_of_next?_none h]
    exact .done (isBlank_readable h)
  | case2 src t rest h ih =>
    obtain ⟨gap, w, rfl, hgap, hw, hlong⟩ := next?_munched h
    have hread : (gap ++ (w ++ rest)).readable = gap ++ (w ++ rest.readable) := by
      rw [readable, List.takeWhile_append_of_pos fun b hb => ne_zero_of_isBlank (hgap b hb),
        List.takeWhile_append_of_pos hw.shape.ne_zero, readable]
    have hlong' : Longest w rest.readable := fun w' t' hw' hstart =>
      hlong w' t' hw' (hstart.trans ((List.prefix_append_right_inj w).mpr (List.takeWhile_prefix _)))
    rw [tokens_of_next?_some h, hread]
    exact .token hgap hw hlong' ih

/-! ## The endless stream -/

theorem Lexeme.kind_ne_endOfInput {w : List UInt8} {t : Token} (h : Lexeme w t) : t.kind ≠ .endOfInput := by
  have hkeywords : ∀ p ∈ Token.keywords, p.2 ≠ .endOfInput := by decide
  have hsymbols : ∀ k ∈ Token.symbols, k ≠ .endOfInput := by decide
  cases h with
  | @word w s _ _ _ =>
    rw [Token.Kind.ofWord]
    cases hlookup : Token.keywords.lookup s with
    | none => exact fun h => Token.Kind.noConfusion h
    | some k =>
      obtain ⟨l₁, l₂, hmem, -⟩ := List.lookup_eq_some_iff.mp hlookup
      exact hkeywords (s, k) (by rw [hmem]; simp)
  | number => exact fun h => Token.Kind.noConfusion h
  | symbol hk => exact hsymbols _ hk
  | illegal => exact fun h => Token.Kind.noConfusion h

theorem Munched.kind_ne_endOfInput {src : Source} {ts : List Token} (h : Munched src ts) :
    ∀ t ∈ ts, t.kind ≠ .endOfInput := by
  induction h with
  | done _ => exact fun t ht => absurd ht (by simp)
  | token _ hw _ _ ih =>
    intro t ht
    rcases List.mem_cons.mp ht with rfl | ht
    · exact hw.kind_ne_endOfInput
    · exact ih t ht

/-- Reading the end mark stays in front of it. -/
theorem stream_of_next?_none {src : Source} (h : next? src = none) (k : Nat) :
    src.stream k = List.replicate k .endOfInput := by
  induction k generalizing src with
  | zero => rfl
  | succ k ih =>
    have hrest : next? (src.dropWhile isBlank) = none := by
      rw [← h, next?, next?]
      cases hd : src.dropWhile isBlank with
      | nil => rfl
      | cons b tail => rw [List.dropWhile_cons_of_neg (by simp [isBlank_of_dropWhile hd])]
    rw [stream, next, h, Option.getD_none, ih hrest]
    rfl

theorem stream_tokens (k : Nat) : ∀ src : Source,
    src.stream (src.tokens.length + k) = src.tokens ++ List.replicate k .endOfInput := by
  intro src
  induction src using tokens.induct with
  | case1 src h =>
    rw [tokens_of_next?_none h, List.length_nil, Nat.zero_add]
    exact stream_of_next?_none h k
  | case2 src t rest h ih =>
    rw [tokens_of_next?_some h, List.length_cons, Nat.succ_add, stream, next, h, Option.getD_some, ih]
    rfl

/-- **The lexer loses nothing and munches maximally.** The part of a text before its first zero byte is cut into
blanks and longest lexemes, and this is its only such cut; reading gives the tokens of the cut in order, none of which
is the end mark, and from then on nothing but the end mark. -/
theorem tokens_maximalMunch (src : Source) :
    Munched (src.takeWhile (· != 0)) src.tokens ∧
      (∀ ts, Munched (src.takeWhile (· != 0)) ts → ts = src.tokens) ∧
      (∀ t ∈ src.tokens, t.kind ≠ .endOfInput) ∧
      ∀ k, src.stream (src.tokens.length + k) = src.tokens ++ List.replicate k ⟨.endOfInput, ""⟩ := by
  have hcut := munched_readable src
  exact ⟨hcut, fun ts h => h.unique hcut, hcut.kind_ne_endOfInput, fun k => stream_tokens k src⟩

-- a digit glued to a letter, a byte that is no text, and an operator cut off by the zero byte
example : tokens [49, 97, 255, 61, 0, 61] = [⟨.int, "1"⟩, ⟨.ident, "a"⟩, ⟨.illegal, "ÿ"⟩, ⟨.assign, "="⟩] := by
  decide +kernel

end Source

end LetLang
