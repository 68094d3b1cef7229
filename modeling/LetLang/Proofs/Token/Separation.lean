import LetLang.Token.Lexer
import Mathlib.Data.List.TakeWhile

/-!
# Blanks separate tokens

A lexeme is found by looking at what follows it, so the tokens of two texts written one after the other are
in general not the tokens of the one and then of the other: `=` and `=` make `==`. They are if the second text
starts with nothing that could belong to a lexeme before it (`tokens_append`). Blanks between the two are
enough (`tokens_pieces`), because no lexeme contains one and none is changed by meeting one.

The other half is about single tokens: the texts of names, numbers, reserved words and symbols are read as
the tokens they are the text of (`Lexical`). Together they say that tokens written with a space between
them are read back (`tokens_spaced`).
-/

set_option autoImplicit false

namespace LetLang

namespace Source

/-! ## Lexemes before a blank -/

section
variable {α : Type} {p : α → Bool}

theorem takeWhile_append_stop {w : α} (hw : p w = false) (xs ys : List α) :
    (xs ++ w :: ys).takeWhile p = xs.takeWhile p := by
  induction xs with
  | nil => simp [hw]
  | cons x xs ih =>
    cases hx : p x with
    | true => simp [hx, ih]
    | false => simp [hx]

theorem dropWhile_append_stop {w : α} (hw : p w = false) (xs ys : List α) :
    (xs ++ w :: ys).dropWhile p = xs.dropWhile p ++ w :: ys := by
  induction xs with
  | nil => simp [hw]
  | cons x xs ih =>
    cases hx : p x with
    | true => simp [hx, ih]
    | false => simp [hx]

end

/-- The text does not go on with what stands before it: its first byte, if it has one, is neither a letter nor a
digit nor the second half of an operator. -/
def StartsAnew (more : Source) : Prop :=
  ∀ w ∈ more.head?, isLetter w = false ∧ isDigit w = false ∧ (w == 61) = false

/-- A blank belongs to no lexeme. -/
theorem isBlank_cases {w : UInt8} (h : isBlank w = true) :
    isLetter w = false ∧ isDigit w = false ∧ (w == 61) = false := by
  simp only [isBlank, Bool.or_eq_true, beq_iff_eq] at h
  rcases h with ((rfl | rfl) | rfl) | rfl <;> decide

theorem startsAnew_cons {w : UInt8} {more : Source}
    (h : isLetter w = false ∧ isDigit w = false ∧ (w == 61) = false) : StartsAnew (w :: more) := by
  intro b hb
  obtain rfl : w = b := Option.some.inj hb
  exact h

theorem munch_before {more : Source} (h : StartsAnew more) (b : UInt8) (rest : Source) :
    munch b (rest ++ more) = ((munch b rest).1, (munch b rest).2 ++ more) := by
  cases more with
  | nil => simp only [List.append_nil]
  | cons w more =>
    obtain ⟨hl, hd, he⟩ := h w rfl
    unfold munch
    split
    · rw [takeWhile_append_stop hl, dropWhile_append_stop hl]
    · split
      · rw [takeWhile_append_stop hd, dropWhile_append_stop hd]
      · cases rest with
        | nil => simp [he]
        | cons c rest => simp only [List.cons_append]; split <;> rfl

/-- What is left after a token is a suffix of the text. -/
theorem munch_suffix (b : UInt8) (rest : Source) : (munch b rest).2 <:+ rest := by
  unfold munch
  split
  · exact List.dropWhile_suffix _
  · split
    · exact List.dropWhile_suffix _
    · split
      · exact List.suffix_refl _
      · split
        · exact List.suffix_cons _ _
        · exact List.suffix_refl _

theorem next?_suffix {src rest : Source} {t : Token} (h : next? src = some (t, rest)) :
    rest <:+ src := by
  unfold next? at h
  split at h
  · cases h
  · next b tail hd =>
    split at h
    · cases h
    · obtain ⟨-, rfl⟩ := Prod.mk.inj (Option.some.inj h)
      have htail : b :: tail <:+ src := hd ▸ List.dropWhile_suffix _
      exact ((munch_suffix b tail).trans (List.suffix_cons b tail)).trans htail

theorem next?_before {src rest more : Source} {t : Token} (hmore : StartsAnew more)
    (h : next? src = some (t, rest)) : next? (src ++ more) = some (t, rest ++ more) := by
  unfold next? at h ⊢
  rw [List.dropWhile_append]
  cases hd : src.dropWhile isBlank with
  | nil => rw [hd] at h; cases h
  | cons b tail =>
    simp only [hd] at h
    simp only [List.isEmpty_cons, Bool.false_eq_true, if_false, List.cons_append]
    split at h
    · cases h
    · next hb =>
      obtain ⟨rfl, rfl⟩ := Prod.mk.inj (Option.some.inj h)
      rw [if_neg hb, munch_before hmore]

/-- Where there is no zero byte, only blanks are no token. -/
theorem dropWhile_append_of_none {src : Source} (more : Source) (hsrc : 0 ∉ src) (h : next? src = none) :
    (src ++ more).dropWhile isBlank = more.dropWhile isBlank := by
  have hd : src.dropWhile isBlank = [] := by
    cases hd : src.dropWhile isBlank with
    | nil => rfl
    | cons b tail =>
      have hb : b ∈ src := (List.dropWhile_suffix isBlank).mem (hd ▸ List.mem_cons_self)
      simp only [next?, hd, beq_iff_eq] at h
      rw [if_neg fun h0 : b = 0 => hsrc (h0 ▸ hb)] at h
      cases h
  rw [List.dropWhile_append, hd]
  rfl

theorem next?_append_of_none {src : Source} (more : Source) (hsrc : 0 ∉ src) (h : next? src = none) :
    next? (src ++ more) = next? more := by
  simp only [next?, dropWhile_append_of_none more hsrc h]

theorem tokens_of_next?_none {src : Source} (h : next? src = none) : tokens src = [] := by
  rw [tokens]
  split
  · rfl
  · next h' => rw [h] at h'; cases h'

theorem tokens_of_next?_some {src rest : Source} {t : Token} (h : next? src = some (t, rest)) :
    tokens src = t :: tokens rest := by
  rw [tokens]
  split
  · next h' => rw [h] at h'; cases h'
  · next h' =>
    rw [h] at h'
    obtain ⟨rfl, rfl⟩ := Prod.mk.inj (Option.some.inj h')
    rfl

theorem tokens_congr {src src' : Source} (h : next? src = next? src') :
    tokens src = tokens src' := by
  cases hn : next? src' with
  | none => rw [tokens_of_next?_none hn, tokens_of_next?_none (h.trans hn)]
  | some r => rw [tokens_of_next?_some hn, tokens_of_next?_some (h.trans hn)]

/-- **What does not go on with a text is read apart from it.** Induction over the tokens of the text: each leaves a
shorter one in front of the same rest. -/
theorem tokens_append {more : Source} (hmore : StartsAnew more) :
    ∀ {src : Source}, 0 ∉ src → tokens (src ++ more) = tokens src ++ tokens more := by
  intro src hsrc
  induction src using tokens.induct with
  | case1 src h =>
    rw [tokens_of_next?_none h, List.nil_append]
    exact tokens_congr (next?_append_of_none more hsrc h)
  | case2 src t rest h ih =>
    have hrest : 0 ∉ rest := fun h0 => hsrc ((next?_suffix h).mem h0)
    rw [tokens_of_next?_some (next?_before hmore h), tokens_of_next?_some h, ih hrest]
    rfl

theorem tokens_cons_blank {w : UInt8} (hw : isBlank w = true) (more : Source) :
    tokens (w :: more) = tokens more :=
  tokens_congr (by simp [next?, hw])

/-- **A blank ends whatever stands before it.** -/
theorem tokens_append_blank {w : UInt8} (hw : isBlank w = true) (more : Source) :
    ∀ {src : Source}, 0 ∉ src → tokens (src ++ w :: more) = tokens src ++ tokens more := by
  intro src hsrc
  rw [tokens_append (startsAnew_cons (isBlank_cases hw)) hsrc, tokens_cons_blank hw]

/-! ## Pieces with blanks between them -/

theorem tokens_of_blank {gap : Source} (h : ∀ b ∈ gap, isBlank b = true) : tokens gap = [] := by
  refine tokens_of_next?_none ?_
  simp only [next?, List.dropWhile_eq_nil_iff.mpr h]

theorem tokens_blank_append {gap : Source} (h : ∀ b ∈ gap, isBlank b = true) (src : Source) :
    tokens (gap ++ src) = tokens src := by
  refine tokens_congr ?_
  simp only [next?, List.dropWhile_append_of_pos h]

theorem tokens_append_blanks {src gap : Source} (h0 : 0 ∉ src) (h : ∀ b ∈ gap, isBlank b = true) :
    tokens (src ++ gap) = tokens src := by
  cases gap with
  | nil => rw [List.append_nil]
  | cons w gap =>
    have hgap : tokens gap = [] := tokens_of_blank fun b hb => h b (List.mem_cons_of_mem _ hb)
    rw [tokens_append_blank (h w List.mem_cons_self) gap h0, hgap, List.append_nil]

/-- The endless stream depends on a text only from its first byte on that is not blank. -/
theorem stream_congr {src src' : Source} (h : src.dropWhile isBlank = src'.dropWhile isBlank) (k : Nat) :
    src.stream k = src'.stream k := by
  cases k with
  | zero => rfl
  | succ k =>
    have hnext : next src = next src' := by simp only [next, next?, h]
    rw [stream, stream, hnext]

/-- After the tokens of a text the stream is in front of what does not go on with it. -/
theorem stream_append {more : Source} (hmore : StartsAnew more) (k : Nat) :
    ∀ {src : Source}, 0 ∉ src → (src ++ more).stream (src.tokens.length + k) = src.tokens ++ more.stream k := by
  intro src hsrc
  induction src using tokens.induct with
  | case1 src h =>
    rw [tokens_of_next?_none h, List.length_nil, Nat.zero_add, List.nil_append]
    exact stream_congr (dropWhile_append_of_none more hsrc h) k
  | case2 src t rest h ih =>
    have hrest : 0 ∉ rest := fun h0 => hsrc ((next?_suffix h).mem h0)
    have hnext : next (src ++ more) = (t, rest ++ more) := by
      rw [next, next?_before hmore h]
      rfl
    rw [tokens_of_next?_some h, List.length_cons, Nat.succ_add, stream, hnext, ih hrest]
    rfl

/-- **Blanks cut a text into pieces that are read one by one.** Whatever the first piece ends in, the tokens of the whole
are its tokens and then those of the second; and after its tokens the stream goes on as that of the second alone, also
past the end. -/
theorem tokens_pieces {a w : Source} (ha : 0 ∉ a) (hne : w ≠ []) (hw : ∀ c ∈ w, c = 32 ∨ c = 9 ∨ c = 10 ∨ c = 13)
    (b : Source) :
    (a ++ w ++ b).tokens = a.tokens ++ b.tokens ∧
      ∀ k, (a ++ w ++ b).stream (a.tokens.length + k) = a.tokens ++ b.stream k := by
  have hgap : ∀ c ∈ w, isBlank c = true := by
    intro c hc
    rcases hw c hc with rfl | rfl | rfl | rfl <;> rfl
  have hanew : StartsAnew (w ++ b) := by
    obtain ⟨c, w, rfl⟩ := List.exists_cons_of_ne_nil hne
    exact startsAnew_cons (isBlank_cases (hgap c List.mem_cons_self))
  rw [List.append_assoc]
  constructor
  · rw [tokens_append hanew ha, tokens_blank_append hgap]
  · intro k
    rw [stream_append hanew k ha, stream_congr (List.dropWhile_append_of_pos hgap) k]

/-- Operators that would be one without the blanks, and a zero byte in the second piece. -/
theorem tokens_pieces_operators :
    0 ∉ ([120, 33] : Source) ∧ (∀ c ∈ ([9, 10] : Source), c = 32 ∨ c = 9 ∨ c = 10 ∨ c = 13) ∧
      ([120, 33] ++ [9, 10] ++ [61, 61, 0, 61] : Source).tokens = [⟨.ident, "x"⟩, ⟨.bang, "!"⟩, ⟨.equal, "=="⟩] ∧
      ([120, 33] ++ [9, 10] ++ [61, 61, 0, 61] : Source).stream 5 =
        [⟨.ident, "x"⟩, ⟨.bang, "!"⟩, ⟨.equal, "=="⟩, .endOfInput, .endOfInput] := by
  have h0 : 0 ∉ ([120, 33] : Source) := by decide
  have hblank : ∀ c ∈ ([9, 10] : Source), c = 32 ∨ c = 9 ∨ c = 10 ∨ c = 13 := by simp
  have ha : tokens [120, 33] = [⟨.ident, "x"⟩, ⟨.bang, "!"⟩] := by decide +kernel
  have hb : tokens [61, 61, 0, 61] = [⟨.equal, "=="⟩] := by decide +kernel
  have h := tokens_pieces h0 (by simp) hblank [61, 61, 0, 61]
  rw [ha, hb] at h
  exact ⟨h0, hblank, h.1, h.2 3⟩

/-! ## Texts in ASCII -/

theorem ofString_eq (s : String) : ofString s = s.toList.flatMap String.utf8EncodeChar := by
  rw [ofString, String.toUTF8_eq_toByteArray, ← String.utf8Encode_toList, List.utf8Encode,
    List.toList_data_toByteArray]

theorem ofString_append (s s' : String) : ofString (s ++ s') = ofString s ++ ofString s' := by
  simp only [ofString_eq, String.toList_append, List.flatMap_append]

/-- The byte of an ASCII character. -/
def byte (c : Char) : UInt8 := UInt8.ofNat c.toNat

theorem utf8EncodeChar_of_ascii {c : Char} (h : c.toNat ≤ 127) :
    String.utf8EncodeChar c = [byte c] := by
  rw [String.utf8EncodeChar]
  exact if_pos h

theorem ofNat_byte {c : Char} (h : c.toNat ≤ 127) : Char.ofNat (byte c).toNat = c := by
  rw [byte, UInt8.toNat_ofNat', Nat.mod_eq_of_lt (by omega), Char.ofNat_toNat]

theorem ofString_of_ascii {s : String} (h : ∀ c ∈ s.toList, c.toNat ≤ 127) :
    ofString s = s.toList.map byte := by
  rw [ofString_eq]
  generalize s.toList = cs at h
  induction cs with
  | nil => rfl
  | cons c cs ih =>
    rw [List.flatMap_cons, utf8EncodeChar_of_ascii (h c List.mem_cons_self),
      ih fun c hc => h c (List.mem_cons_of_mem _ hc)]
    rfl

theorem text_ofString {s : String} (h : ∀ c ∈ s.toList, c.toNat ≤ 127) :
    text (ofString s) = s := by
  have hmap : (s.toList.map byte).map (fun b => Char.ofNat b.toNat) = s.toList := by
    rw [List.map_map]
    exact (List.map_congr_left fun c hc => ofNat_byte (h c hc)).trans (List.map_id _)
  rw [ofString_of_ascii h, text, hmap, String.ofList_toList]

/-! ## Words and numbers -/

theorem next?_of_munch {b : UInt8} {bs : Source} (hblank : isBlank b = false) (h0 : b ≠ 0)
    (hm : munch b bs = (b :: bs, [])) : next? (b :: bs) = some (.ofLexeme (b :: bs), []) := by
  simp [next?, hblank, h0, hm]

/-- A byte that is neither a letter nor a digit is a lexeme of its own, unless an `=` follows it. -/
theorem next?_single {b c : UInt8} (hblank : isBlank b = false) (h0 : b ≠ 0) (hletter : isLetter b = false)
    (hdigit : isDigit b = false) (hc : (c == 61) = false) (rest : Source) :
    next? (b :: c :: rest) = some (.ofLexeme [b], c :: rest) := by
  simp [next?, munch, hblank, h0, hletter, hdigit, hc]

theorem isBlank_of_isLetter {b : UInt8} (h : isLetter b = true) : isBlank b = false := by
  cases hw : isBlank b with
  | false => rfl
  | true => exact absurd (isBlank_cases hw).1 (by simp [h])

theorem isBlank_of_isDigit {b : UInt8} (h : isDigit b = true) : isBlank b = false := by
  cases hw : isBlank b with
  | false => rfl
  | true => exact absurd (isBlank_cases hw).2.1 (by simp [h])

theorem isLetter_of_isDigit {b : UInt8} (h : isDigit b = true) : isLetter b = false := by
  simp only [isDigit, Bool.and_eq_true, decide_eq_true_eq, UInt8.le_iff_toNat_le] at h
  have hne : b ≠ 95 := by
    rintro rfl
    exact absurd h (by decide)
  simp only [isLetter, Bool.or_eq_false_iff, Bool.and_eq_false_iff, decide_eq_false_iff_not,
    UInt8.le_iff_toNat_le, beq_eq_false_iff_ne]
  simp only [UInt8.reduceToNat] at h ⊢
  exact ⟨⟨by omega, by omega⟩, hne⟩

/-- A run of letters is one lexeme. -/
theorem next?_of_isLetter {w : Source} (hne : w ≠ []) (h : ∀ b ∈ w, isLetter b = true) :
    next? w = some (.ofLexeme w, []) := by
  obtain ⟨b, bs, rfl⟩ := List.exists_cons_of_ne_nil hne
  have hb := h b List.mem_cons_self
  have hbs : ∀ c ∈ bs, isLetter c = true := fun c hc => h c (List.mem_cons_of_mem _ hc)
  refine next?_of_munch (isBlank_of_isLetter hb) ?_ ?_
  · rintro rfl
    exact absurd hb (by decide)
  · unfold munch
    rw [if_pos hb, List.takeWhile_eq_self_iff.mpr hbs, List.dropWhile_eq_nil_iff.mpr hbs]

/-- A run of digits is one lexeme. -/
theorem next?_of_isDigit {w : Source} (hne : w ≠ []) (h : ∀ b ∈ w, isDigit b = true) :
    next? w = some (.ofLexeme w, []) := by
  obtain ⟨b, bs, rfl⟩ := List.exists_cons_of_ne_nil hne
  have hb := h b List.mem_cons_self
  have hbs : ∀ c ∈ bs, isDigit c = true := fun c hc => h c (List.mem_cons_of_mem _ hc)
  refine next?_of_munch (isBlank_of_isDigit hb) ?_ ?_
  · rintro rfl
    exact absurd hb (by decide)
  · unfold munch
    rw [if_neg (by simp [isLetter_of_isDigit hb]), if_pos hb, List.takeWhile_eq_self_iff.mpr hbs,
      List.dropWhile_eq_nil_iff.mpr hbs]

theorem toNat_byte {c : Char} (h : c.toNat ≤ 127) : (byte c).toNat = c.toNat := by
  rw [byte, UInt8.toNat_ofNat', Nat.mod_eq_of_lt (by omega)]

theorem isLetter_byte {c : Char} (h : c.isAlpha = true ∨ c = '_') :
    c.toNat ≤ 127 ∧ isLetter (byte c) = true := by
  rcases h with h | rfl
  · change (decide (65 ≤ c.val ∧ c.val ≤ 90) || 97 ≤ c.val && c.val ≤ 122) = true at h
    simp only [Bool.or_eq_true, Bool.and_eq_true, decide_eq_true_eq, UInt32.le_iff_toNat_le] at h
    change (65 ≤ c.toNat ∧ c.toNat ≤ 90) ∨ (97 ≤ c.toNat ∧ c.toNat ≤ 122) at h
    have hle : c.toNat ≤ 127 := by omega
    refine ⟨hle, ?_⟩
    have hb := toNat_byte hle
    simp only [isLetter, Bool.or_eq_true, Bool.and_eq_true, decide_eq_true_eq,
      UInt8.le_iff_toNat_le, UInt8.reduceToNat]
    omega
  · decide

theorem isDigit_byte {c : Char} (h : c.isDigit = true) :
    c.toNat ≤ 127 ∧ isDigit (byte c) = true := by
  simp only [Char.isDigit, Bool.and_eq_true, decide_eq_true_eq, ge_iff_le,
    UInt32.le_iff_toNat_le] at h
  change 48 ≤ c.toNat ∧ c.toNat ≤ 57 at h
  have hle : c.toNat ≤ 127 := by omega
  refine ⟨hle, ?_⟩
  have hb := toNat_byte hle
  simp only [isDigit, Bool.and_eq_true, decide_eq_true_eq, UInt8.le_iff_toNat_le,
    UInt8.reduceToNat]
  omega

end Source

/-! ## Tokens that are read back -/

namespace Token

/-- The texts of names: words that are not reserved. -/
def IsName (s : String) : Prop :=
  s ≠ "" ∧ (∀ c ∈ s.toList, c.isAlpha = true ∨ c = '_') ∧ s ∉ keywords.map Prod.fst

/-- The texts of numbers. -/
def IsNumeral (s : String) : Prop :=
  s ≠ "" ∧ ∀ c ∈ s.toList, c.isDigit = true

-- looked for among the letters of the word, not among all characters
instance (s : String) : Decidable (IsName s) :=
  haveI : Decidable (∀ c ∈ s.toList, c.isAlpha = true ∨ c = '_') := List.decidableBAll _ _
  inferInstanceAs (Decidable (_ ∧ _ ∧ _))

instance (s : String) : Decidable (IsNumeral s) :=
  haveI : Decidable (∀ c ∈ s.toList, c.isDigit = true) := List.decidableBAll _ _
  inferInstanceAs (Decidable (_ ∧ _))

/-- The text of a token whose kind has only one: the reserved word, or the symbol. -/
def Kind.spelling (k : Kind) : String :=
  ((keywords.find? fun w => w.2 = k).map Prod.fst).getD k.name

/-- The kinds that have only one text. -/
def Kind.isFixed (k : Kind) : Bool :=
  symbols.contains k || (keywords.map Prod.snd).contains k

/-- The token of a kind that has only one text. -/
def fixed (k : Kind) : Token := ⟨k, k.spelling⟩

/-- A token that its own text is read as. -/
def Lexical (t : Token) : Prop :=
  Source.next? (Source.ofString t.literal) = some (t, []) ∧ 0 ∉ Source.ofString t.literal

theorem ofWord_of_not_reserved {s : String} (h : s ∉ keywords.map Prod.fst) :
    Kind.ofWord s = .ident := by
  have hnone : keywords.lookup s = none := by
    rw [List.lookup_eq_none_iff]
    intro w hw
    rw [bne_iff_ne]
    rintro rfl
    exact h (List.mem_map_of_mem hw)
  rw [Kind.ofWord, hnone]
  rfl

theorem ofString_ne_nil {s : String} (hs : s ≠ "") (h : ∀ c ∈ s.toList, c.toNat ≤ 127) :
    Source.ofString s ≠ [] := by
  rw [Source.ofString_of_ascii h]
  intro hnil
  exact hs (String.toList_eq_nil_iff.mp (List.map_eq_nil_iff.mp hnil))

theorem lexical_name {s : String} (h : IsName s) : Lexical ⟨.ident, s⟩ := by
  obtain ⟨hne, hletters, hres⟩ := h
  have hascii : ∀ c ∈ s.toList, c.toNat ≤ 127 := fun c hc => (Source.isLetter_byte (hletters c hc)).1
  have hbytes : ∀ b ∈ Source.ofString s, Source.isLetter b = true := by
    rw [Source.ofString_of_ascii hascii]
    intro b hb
    obtain ⟨c, hc, rfl⟩ := List.mem_map.mp hb
    exact (Source.isLetter_byte (hletters c hc)).2
  refine ⟨?_, fun h0 => absurd (hbytes 0 h0) (by decide)⟩
  have hs := ofString_ne_nil hne hascii
  have htoken : Token.ofLexeme (Source.ofString s) = ⟨.ident, s⟩ := by
    obtain ⟨b, bs, hbs⟩ := List.exists_cons_of_ne_nil hs
    have hb : Source.isLetter b = true := hbytes b (hbs ▸ List.mem_cons_self)
    rw [Token.ofLexeme, Source.text_ofString hascii, hbs, Kind.ofLexeme, if_pos hb, ← hbs,
      Source.text_ofString hascii, ofWord_of_not_reserved hres]
  rw [Source.next?_of_isLetter hs hbytes, htoken]

theorem lexical_numeral {s : String} (h : IsNumeral s) : Lexical ⟨.int, s⟩ := by
  obtain ⟨hne, hdigits⟩ := h
  have hascii : ∀ c ∈ s.toList, c.toNat ≤ 127 := fun c hc => (Source.isDigit_byte (hdigits c hc)).1
  have hbytes : ∀ b ∈ Source.ofString s, Source.isDigit b = true := by
    rw [Source.ofString_of_ascii hascii]
    intro b hb
    obtain ⟨c, hc, rfl⟩ := List.mem_map.mp hb
    exact (Source.isDigit_byte (hdigits c hc)).2
  refine ⟨?_, fun h0 => absurd (hbytes 0 h0) (by decide)⟩
  have hs := ofString_ne_nil hne hascii
  have htoken : Token.ofLexeme (Source.ofString s) = ⟨.int, s⟩ := by
    obtain ⟨b, bs, hbs⟩ := List.exists_cons_of_ne_nil hs
    have hb : Source.isDigit b = true := hbytes b (hbs ▸ List.mem_cons_self)
    rw [Token.ofLexeme, Source.text_ofString hascii, hbs, Kind.ofLexeme,
      if_neg (by simp [Source.isLetter_of_isDigit hb]), if_pos hb]
  rw [Source.next?_of_isDigit hs hbytes, htoken]

theorem lexical_fixed {k : Kind} (h : k.isFixed = true) : Lexical (fixed k) := by
  cases k <;> first | exact ⟨by decide, by decide⟩ | exact absurd h (by decide)

theorem Lexical.tokens_eq {t : Token} (h : t.Lexical) :
    Source.tokens (Source.ofString t.literal) = [t] := by
  rw [Source.tokens_of_next?_some h.1, Source.tokens_of_next?_none rfl]

/-- A symbol is read apart from what follows it, unless it would join with an `=`. -/
theorem tokens_symbol {k : Kind} (hk : k ∈ symbols) {more : Source}
    (h : k = .assign ∨ k = .bang → more.head? ≠ some 61) :
    Source.tokens (Source.ofString k.spelling ++ more) = fixed k :: Source.tokens more := by
  refine Source.tokens_of_next?_some ?_
  cases k with
  | assign | bang =>
    cases more with
    | nil => rfl
    | cons c more =>
      have hc : (c == 61) = false := by simpa using h (by simp)
      exact Source.next?_single rfl (by decide) rfl rfl hc more
  | equal | notEqual => rfl
  | illegal | endOfInput | ident | int | kwFn | kwLet | kwTrue | kwFalse | kwIf | kwElse | kwReturn =>
    exact absurd hk (by decide)
  | _ => cases more <;> rfl

/-- Tokens written with a space between them. -/
def spaced (ts : List Token) : Source :=
  [32].intercalate (ts.map fun t => Source.ofString t.literal)

/-- **Tokens written with a space between them are read back.** -/
theorem tokens_spaced : ∀ {ts : List Token}, (∀ t ∈ ts, t.Lexical) →
    Source.tokens (spaced ts) = ts := by
  intro ts
  induction ts with
  | nil => intro _; exact Source.tokens_of_next?_none rfl
  | cons t ts ih =>
    intro h
    have ht := (h t List.mem_cons_self).tokens_eq
    have h0 := (h t List.mem_cons_self).2
    cases ts with
    | nil => simpa [spaced, List.intercalate] using ht
    | cons t' ts =>
      have hsp : spaced (t :: t' :: ts) = Source.ofString t.literal ++ 32 :: spaced (t' :: ts) := by
        simp [spaced, List.intercalate]
      rw [hsp, Source.tokens_append_blank (by decide) _ h0, ht,
        ih fun u hu => h u (List.mem_cons_of_mem _ hu)]
      rfl

end Token

end LetLang
