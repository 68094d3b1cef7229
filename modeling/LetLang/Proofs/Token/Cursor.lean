import LetLang.Proofs.Token.MaximalMunch
import Mathlib.Logic.Function.Iterate

/-!
# Reading by position

The lexer is given what is left of a text and leaves less of it. The same reading can be done by a cursor that goes over
the whole text byte by byte, and cuts words and numbers out between two positions. For a cursor it is a question whether
it stays within the text: `advance` does not ask if there is a byte to go on to, and at the end of the text it would
carry the position past it (`inBounds_advance_iff`). No call makes it there (`start_inBounds`).

Two facts carry this. A cursor within bounds has nothing to it but its position (`ofPosition`); and at a position each
function of the cursor does what the lexer does with the text from there on (`next_ofPosition`). So the cursor gives the
tokens of the lexer, goes on where the lexer uses something up, and stands still where the lexer does.
-/

set_option autoImplicit false

namespace LetLang

namespace Source

/-! ## Where the lexer finds the end -/

theorem kind_next_eq_endOfInput_iff {src : Source} :
    (next src).1.kind = .endOfInput ↔ next? src = none := by
  cases h : next? src with
  | none => simp [next, h, Token.endOfInput]
  | some r =>
    obtain ⟨-, w, -, -, hw, -⟩ := next?_munched h
    simp [next, h, hw.kind_ne_endOfInput]

/-- Where the lexer finds no token, there is no byte after the blanks, or a zero byte. -/
theorem head?_dropWhile_of_none {src : Source} (h : next? src = none) :
    (src.dropWhile isBlank).head?.getD 0 = 0 := by
  unfold next? at h
  split at h
  · next hd => rw [hd]; rfl
  · next b rest hd =>
    split at h
    · next h0 => rw [hd]; exact beq_iff_eq.mp h0
    · cases h

/-! ## The cursor -/

/-- A part of a text, from one position up to another. -/
structure Cut where
  start : Nat
  stop : Nat
  deriving DecidableEq, Repr

/-- The bytes of the part. -/
def Cut.bytes (cut : Cut) (src : Source) : List UInt8 := src.extract cut.start cut.stop

/-- How far a text has been read. -/
structure Cursor where
  input : Source
  /-- Where the byte that is looked at stands. -/
  position : Nat
  /-- Where the byte after it stands. -/
  ahead : Nat
  /-- The byte that is looked at, or zero. -/
  byte : UInt8
  deriving DecidableEq, Repr

namespace Cursor

/-- What one call gives: a token, the part of the text that was cut out for it, if any, and how far the text has then been
read. -/
structure Reading where
  token : Token
  cut : Option Cut := none
  cursor : Cursor
  deriving DecidableEq, Repr

/-- The byte after the one that is looked at; zero if there is none. -/
def peek (c : Cursor) : UInt8 :=
  if h : c.ahead < c.input.length then c.input[c.ahead] else 0

/-- Goes on to the next byte. The position moves in any case; the one ahead of it stays once it is past the end. -/
def advance (c : Cursor) : Cursor :=
  { c with
    byte := c.peek
    position := c.ahead
    ahead := if c.ahead ≤ c.input.length then c.ahead + 1 else c.ahead }

/-- In front of a text. -/
def start (src : Source) : Cursor :=
  advance { input := src, position := 0, ahead := 0, byte := 0 }

/-- Goes on as long as the byte that is looked at satisfies `p`. Past the end there are only zeros: a loop that a zero
ends makes one more step there and no second one, so it need not be followed any further (`advanceWhile_eq`). -/
def advanceWhile (p : UInt8 → Bool) (c : Cursor) : Cursor :=
  if p c.byte then
    if c.ahead ≤ c.input.length then c.advance.advanceWhile p else c.advance
  else c
termination_by c.input.length + 1 - c.ahead
decreasing_by simp only [advance]; split <;> omega

/-- Cuts out the bytes that satisfy `p` from here on. -/
def readWhile (p : UInt8 → Bool) (c : Cursor) : Reading :=
  let after := c.advanceWhile p
  let cut : Cut := ⟨c.position, after.position⟩
  { token := .ofLexeme (cut.bytes c.input), cut := some cut, cursor := after }

/-- Reads the token that starts here, if one does. -/
def lexeme (c : Cursor) : Reading :=
  if joinsEquals c.byte && c.peek == 61 then
    { token := .ofLexeme [c.byte, c.peek], cursor := c.advance.advance }
  else if c.byte == 0 then { token := .endOfInput, cursor := c }
  else if isLetter c.byte then c.readWhile isLetter
  else if isDigit c.byte then c.readWhile isDigit
  else { token := .ofLexeme [c.byte], cursor := c.advance }

/-- Reads one token after skipping blanks. -/
def next (c : Cursor) : Reading := (c.advanceWhile isBlank).lexeme

/-- The cursor after `n` calls. -/
def after : Nat → Cursor → Cursor
  | 0, c => c
  | n + 1, c => c.next.cursor.after n

/-- The tokens of the first `n` calls. -/
def stream : Nat → Cursor → List Token
  | 0, _ => []
  | n + 1, c => c.next.token :: c.next.cursor.stream n

/-- The state is the one that belongs to its position in the text. -/
structure InBounds (src : Source) (c : Cursor) : Prop where
  input_eq : c.input = src
  position_le : c.position ≤ src.length
  ahead_eq : c.ahead = c.position + 1
  byte_eq : ∀ h : c.position < src.length, c.byte = src[c.position]
  byte_end : ¬ c.position < src.length → c.byte = 0

/-- What a call at the cursor does within the text. -/
structure ReadsWithin (src : Source) (c : Cursor) : Prop where
  /-- It goes on byte by byte, and the cursor is in bounds at each byte on the way. -/
  steps : ∃ k, c.next.cursor = advance^[k] c ∧ ∀ i ≤ k, InBounds src (advance^[i] c)
  /-- What is cut out of the text is something, and it ends where the cursor stands then. -/
  cut : ∀ {cut : Cut}, c.next.cut = some cut →
    cut.start < cut.stop ∧ cut.stop ≤ src.length ∧ cut.stop = c.next.cursor.position
  /-- A token uses up some of the text. -/
  moves : c.next.token.kind ≠ .endOfInput → c.position < c.next.cursor.position
  /-- The end mark is read at the end of the text or in front of a zero byte, and from then on nothing changes. -/
  ends : c.next.token.kind = .endOfInput →
    (c.next.cursor.position = src.length ∨ src[c.next.cursor.position]? = some 0) ∧
      ∀ k, c.next.cursor.after k = c.next.cursor ∧ c.next.cursor.stream k = List.replicate k .endOfInput
  /-- The lexer reads the same token from what is left of the text here, and leaves what is left of it there. -/
  lexer : Source.next (src.drop c.position) = (c.next.token, src.drop c.next.cursor.position)

/-! ## Positions -/

/-- The cursor at a position of a text. -/
@[simps]
def ofPosition (src : Source) (i : Nat) : Cursor :=
  { input := src, position := i, ahead := i + 1, byte := src[i]?.getD 0 }

section
variable {src : Source} {i : Nat}

theorem inBounds_ofPosition (h : i ≤ src.length) : InBounds src (ofPosition src i) where
  input_eq := rfl
  position_le := h
  ahead_eq := rfl
  byte_eq := fun (hlt : i < src.length) => by
    rw [ofPosition_byte, List.getElem?_eq_getElem hlt]
    rfl
  byte_end := fun (hge : ¬ i < src.length) => by
    rw [ofPosition_byte, List.getElem?_eq_none (Nat.le_of_not_lt hge)]
    rfl

theorem peek_eq (c : Cursor) : c.peek = c.input[c.ahead]?.getD 0 := by
  unfold peek
  split
  · next h => rw [List.getElem?_eq_getElem h]; rfl
  · next h => rw [List.getElem?_eq_none (Nat.le_of_not_lt h)]; rfl

theorem start_eq (src : Source) : start src = ofPosition src 0 := by
  simp only [start, advance, peek_eq, ofPosition, Nat.zero_le, if_true]

/-- Before the end of the text one can go on. -/
theorem advance_ofPosition (h : i < src.length) : (ofPosition src i).advance = ofPosition src (i + 1) := by
  have hahead : i + 1 ≤ src.length := h
  simp only [advance, peek_eq, ofPosition, hahead, if_true]

/-- At the end of the text, going on leads out of it. -/
theorem inBounds_advance_iff : InBounds src (ofPosition src i).advance ↔ i < src.length := by
  constructor
  · exact fun hin => hin.position_le
  · intro hlt
    rw [advance_ofPosition hlt]
    exact inBounds_ofPosition hlt

theorem iterate_advance {k : Nat} (h : i + k ≤ src.length) :
    advance^[k] (ofPosition src i) = ofPosition src (i + k) := by
  induction k with
  | zero => rfl
  | succ k ih =>
    rw [Function.iterate_succ_apply', ih (by omega), advance_ofPosition (by omega)]
    rfl

/-! ## What stands at a position -/

theorem byte_of_drop_nil (h : src.drop i = []) : (ofPosition src i).byte = 0 := by
  rw [ofPosition_byte, List.getElem?_eq_none (List.drop_eq_nil_iff.mp h), Option.getD_none]

theorem drop_of_append {w rest : Source} (h : src.drop i = w ++ rest) : src.drop (i + w.length) = rest := by
  rw [← List.drop_drop, h, List.drop_left]

theorem bytes_of_append {w rest : Source} (h : src.drop i = w ++ rest) : Cut.bytes ⟨i, i + w.length⟩ src = w := by
  rw [Cut.bytes, List.extract_eq_take_drop, h, Nat.add_sub_cancel_left, List.take_left]

theorem le_of_append {w rest : Source} (h : src.drop i = w ++ rest) (hi : i ≤ src.length) :
    i + w.length ≤ src.length := by
  have hlen := congrArg List.length h
  rw [List.length_drop, List.length_append] at hlen
  omega

section
variable {b : UInt8} {rest : Source}

theorem byte_of_drop_cons (h : src.drop i = b :: rest) : (ofPosition src i).byte = b := by
  rw [ofPosition_byte, ← List.head?_drop, h, List.head?_cons, Option.getD_some]

theorem drop_succ_of_drop_cons (h : src.drop i = b :: rest) : src.drop (i + 1) = rest :=
  drop_of_append (w := [b]) h

theorem peek_of_drop_cons (h : src.drop i = b :: rest) : (ofPosition src i).peek = rest.head?.getD 0 := by
  rw [peek_eq, ofPosition_input, ofPosition_ahead, ← List.head?_drop, drop_succ_of_drop_cons h]

theorem lt_of_drop_cons (h : src.drop i = b :: rest) : i < src.length := by
  have hlen := congrArg List.length h
  rw [List.length_drop, List.length_cons] at hlen
  omega

end

/-! ## Runs of bytes -/

section
variable {p : UInt8 → Bool} (hp : p 0 = false)
include hp

/-- The loop that is meant: as long as the byte satisfies `p`, go on. -/
theorem advanceWhile_eq (c : Cursor) : c.advanceWhile p = if p c.byte then c.advance.advanceWhile p else c := by
  rw [advanceWhile]
  split
  · split
    · rfl
    · next hahead =>
      have hbyte : c.advance.byte = 0 := by
        change c.peek = 0
        rw [peek_eq, List.getElem?_eq_none (by omega), Option.getD_none]
      rw [advanceWhile, hbyte, hp]
      rfl
  · rfl

/-- Going on takes the bytes that satisfy `p`. Induction over what is left of the text. -/
theorem advanceWhile_ofPosition :
    (ofPosition src i).advanceWhile p = ofPosition src (i + ((src.drop i).takeWhile p).length) := by
  generalize hrest : src.drop i = rest
  induction rest generalizing i with
  | nil =>
    rw [advanceWhile_eq hp, byte_of_drop_nil hrest, hp]
    rfl
  | cons b rest ih =>
    rw [advanceWhile_eq hp, byte_of_drop_cons hrest]
    cases hb : p b with
    | false =>
      rw [List.takeWhile_cons_of_neg (by simp [hb])]
      rfl
    | true =>
      rw [if_pos rfl, advance_ofPosition (lt_of_drop_cons hrest), ih (drop_succ_of_drop_cons hrest),
        List.takeWhile_cons_of_pos hb, List.length_cons, Nat.add_assoc, Nat.add_comm 1]

theorem readWhile_ofPosition {b : UInt8} {rest : Source} (h : src.drop i = b :: rest) (hb : p b = true) :
    (ofPosition src i).readWhile p =
      { token := .ofLexeme (b :: rest.takeWhile p)
        cut := some ⟨i, i + (b :: rest.takeWhile p).length⟩
        cursor := ofPosition src (i + (b :: rest.takeWhile p).length) } := by
  have hsplit : src.drop i = (b :: rest.takeWhile p) ++ rest.dropWhile p := by
    rw [h, List.cons_append, List.takeWhile_append_dropWhile]
  have hrun : (src.drop i).takeWhile p = b :: rest.takeWhile p := by rw [h, List.takeWhile_cons_of_pos hb]
  simp only [readWhile, advanceWhile_ofPosition hp, hrun, ofPosition_position, ofPosition_input, bytes_of_append hsplit]

end

/-! ## One call -/

/-- What joins with an equals sign is in no word or number. -/
theorem joinsEquals_cases {b : UInt8} (h : joinsEquals b = true) : isLetter b = false ∧ isDigit b = false := by
  simp only [joinsEquals, Bool.or_eq_true, beq_iff_eq] at h
  rcases h with rfl | rfl <;> decide

/-- In front of a lexeme, the one that the lexer splits off is read. -/
theorem lexeme_ofPosition {b : UInt8} {rest : Source} (h : src.drop i = b :: rest) (h0 : b ≠ 0) :
    (ofPosition src i).lexeme =
      { token := .ofLexeme (munch b rest).1
        cut := if isLetter b || isDigit b then some ⟨i, i + (munch b rest).1.length⟩ else none
        cursor := ofPosition src (i + (munch b rest).1.length) } := by
  have hzero : (b == 0) = false := beq_eq_false_iff_ne.mpr h0
  have hadvance := advance_ofPosition (lt_of_drop_cons h)
  unfold lexeme munch
  rw [byte_of_drop_cons h, peek_of_drop_cons h]
  cases hjoins : joinsEquals b with
  | true =>
    obtain ⟨hletter, hdigit⟩ := joinsEquals_cases hjoins
    cases rest with
    | nil => simp [hletter, hdigit, hzero, hadvance]
    | cons c rest =>
      cases hc : c == 61 with
      | true =>
        have hadvance' := advance_ofPosition (lt_of_drop_cons (drop_succ_of_drop_cons h))
        simp [hletter, hdigit, hc, hadvance, hadvance']
      | false => simp [hletter, hdigit, hzero, hc, hadvance]
  | false =>
    cases hletter : isLetter b with
    | true => simp [hzero, readWhile_ofPosition (p := isLetter) rfl h hletter]
    | false =>
      cases hdigit : isDigit b with
      | true => simp [hzero, readWhile_ofPosition (p := isDigit) rfl h hdigit]
      | false => cases rest <;> simp [hzero, hadvance]

theorem lexeme_of_byte_eq_zero {c : Cursor} (h : c.byte = 0) : c.lexeme = { token := .endOfInput, cursor := c } := by
  rw [lexeme, h]
  rfl

/-- Where there is no byte or a zero byte, a call changes nothing. -/
theorem next_of_byte_eq_zero {c : Cursor} (h : c.byte = 0) : c.next = { token := .endOfInput, cursor := c } := by
  have hblank : c.advanceWhile isBlank = c := by
    rw [advanceWhile_eq rfl, h]
    rfl
  rw [next, hblank, lexeme_of_byte_eq_zero h]

/-- **A call does what the lexer does with the text from there on.** -/
theorem next_ofPosition (hi : i ≤ src.length) :
    ∃ j, i ≤ j ∧ j ≤ src.length ∧ (ofPosition src i).next.cursor = ofPosition src j ∧
      Source.next (src.drop i) = ((ofPosition src i).next.token, src.drop j) ∧
      ∀ cut, (ofPosition src i).next.cut = some cut → cut.start < j ∧ cut.stop = j := by
  have hgap : src.drop i = (src.drop i).takeWhile isBlank ++ (src.drop i).dropWhile isBlank :=
    List.takeWhile_append_dropWhile.symm
  have hk := le_of_append hgap hi
  have hdrop := drop_of_append hgap
  rw [Cursor.next, advanceWhile_ofPosition (p := isBlank) rfl, Source.next, next?]
  generalize hgapped : i + ((src.drop i).takeWhile isBlank).length = k at hk hdrop
  have hik : i ≤ k := by omega
  rw [← hdrop]
  cases hrest : src.drop k with
  | nil =>
    refine ⟨k, hik, hk, ?_⟩
    rw [lexeme_of_byte_eq_zero (byte_of_drop_nil hrest), hrest]
    exact ⟨rfl, rfl, by simp⟩
  | cons b rest =>
    by_cases h0 : b = 0
    · refine ⟨k, hik, hk, ?_⟩
      have hbyte := (byte_of_drop_cons hrest).trans h0
      rw [lexeme_of_byte_eq_zero hbyte, hrest, h0]
      exact ⟨rfl, rfl, by simp⟩
    · have hsplit : src.drop k = (munch b rest).1 ++ (munch b rest).2 := by rw [hrest, munch_append]
      have hpos := length_munch_pos b rest
      refine ⟨k + (munch b rest).1.length, by omega, le_of_append hsplit hk, ?_⟩
      rw [lexeme_ofPosition hrest h0, drop_of_append hsplit]
      refine ⟨rfl, by simp [h0], ?_⟩
      intro cut hcut
      obtain ⟨-, hcut⟩ := Option.ite_none_right_eq_some.mp hcut
      obtain rfl := Option.some.inj hcut
      exact ⟨Nat.lt_add_of_pos_right hpos, rfl⟩

end

/-! ## All calls -/

theorem after_of_byte_eq_zero {c : Cursor} (h : c.byte = 0) (k : Nat) :
    c.after k = c ∧ c.stream k = List.replicate k .endOfInput := by
  induction k with
  | zero => exact ⟨rfl, rfl⟩
  | succ k ih =>
    rw [after, stream, next_of_byte_eq_zero h, ih.1, ih.2]
    exact ⟨rfl, rfl⟩

section
variable {src : Source} {i : Nat}

theorem readsWithin_ofPosition (hi : i ≤ src.length) : ReadsWithin src (ofPosition src i) := by
  obtain ⟨j, hij, hj, hcursor, hlexer, hcut⟩ := next_ofPosition hi
  have hend : (ofPosition src i).next.token.kind = .endOfInput ↔ next? (src.drop i) = none := by
    rw [← kind_next_eq_endOfInput_iff, hlexer]
  constructor
  case steps =>
    refine ⟨j - i, ?_, ?_⟩
    · rw [hcursor, iterate_advance (by omega), Nat.add_sub_cancel' hij]
    · intro k hk
      rw [iterate_advance (by omega)]
      exact inBounds_ofPosition (by omega)
  case cut =>
    intro cut h
    obtain ⟨hstart, hstop⟩ := hcut cut h
    rw [hcursor]
    exact ⟨hstop ▸ hstart, hstop ▸ hj, hstop⟩
  case moves =>
    intro hkind
    obtain ⟨r, hr⟩ := Option.ne_none_iff_exists'.mp fun hnone => hkind (hend.mpr hnone)
    have hrest : r.2 = src.drop j := by
      rw [Source.next, hr] at hlexer
      exact congrArg Prod.snd hlexer
    have hlt := next?_length_lt hr
    rw [hrest, List.length_drop, List.length_drop] at hlt
    rw [hcursor]
    show i < j
    omega
  case ends =>
    intro hkind
    have hnone := hend.mp hkind
    have hdrop : (src.drop i).dropWhile isBlank = src.drop j := by
      rw [Source.next, hnone] at hlexer
      exact congrArg Prod.snd hlexer
    have hbyte : src[j]?.getD 0 = 0 := by
      rw [← List.head?_drop, ← hdrop, head?_dropWhile_of_none hnone]
    rw [hcursor]
    refine ⟨?_, after_of_byte_eq_zero hbyte⟩
    show j = src.length ∨ src[j]? = some 0
    rcases Nat.lt_or_eq_of_le hj with hlt | heq
    · rw [List.getElem?_eq_getElem hlt] at hbyte ⊢
      exact .inr (congrArg some hbyte)
    · exact .inl heq
  case lexer =>
    rw [hcursor]
    exact hlexer

/-- Call after call leads from one position in the text to another, and gives what the lexer gives. -/
theorem after_ofPosition (n : Nat) (hi : i ≤ src.length) :
    (∃ j ≤ src.length, (ofPosition src i).after n = ofPosition src j) ∧
      (ofPosition src i).stream n = Source.stream n (src.drop i) := by
  induction n generalizing i with
  | zero => exact ⟨⟨i, hi, rfl⟩, rfl⟩
  | succ n ih =>
    obtain ⟨j, -, hj, hcursor, hlexer, -⟩ := next_ofPosition hi
    obtain ⟨hafter, hstream⟩ := ih hj
    rw [after, stream, Source.stream, hcursor, hlexer, hstream]
    exact ⟨hafter, rfl⟩

end

/-- **The cursor stays within the text**, however many calls are made: the state that it is in is the one of its
position, and so it is at each byte that the next call passes; what this call cuts out is a part of the text and not
empty, a token moves the cursor, and after the end mark it stands still. The tokens are those of the lexer. -/
theorem start_inBounds (src : Source) (n : Nat) :
    InBounds src ((start src).after n) ∧ ReadsWithin src ((start src).after n) ∧
      (start src).stream n = src.stream n := by
  obtain ⟨⟨j, hj, hafter⟩, hstream⟩ := after_ofPosition n (Nat.zero_le src.length)
  rw [start_eq, hafter, hstream]
  exact ⟨inBounds_ofPosition hj, readsWithin_ofPosition hj, rfl⟩

/-- A word up to an operator that would be longer if the text did not end there with a zero byte. -/
def halfOperator : Source := [97, 98, 61, 0, 61]

theorem start_inBounds_halfOperator :
    (start halfOperator).stream 3 = [⟨.ident, "ab"⟩, ⟨.assign, "="⟩, .endOfInput] ∧
      (start halfOperator).next.cut = some ⟨0, 2⟩ ∧ 2 ≤ halfOperator.length ∧
      ((start halfOperator).after 1).position < ((start halfOperator).after 1).next.cursor.position ∧
      ((start halfOperator).after 2).next.cursor.position = 3 ∧ halfOperator[3]? = some 0 ∧
      ∀ k, (((start halfOperator).after 2).next.cursor.after k).position = 3 := by
  have hfirst : (start halfOperator).next.cut = some ⟨0, 2⟩ := by decide +kernel
  have hsecond : ((start halfOperator).after 1).next.token.kind ≠ .endOfInput := by decide +kernel
  have hthird : ((start halfOperator).after 2).next.token.kind = .endOfInput := by decide +kernel
  have hplace : ((start halfOperator).after 2).next.cursor.position = 3 := by decide +kernel
  obtain ⟨-, word, -⟩ := start_inBounds halfOperator 0
  obtain ⟨-, operator, -⟩ := start_inBounds halfOperator 1
  obtain ⟨-, ending, -⟩ := start_inBounds halfOperator 2
  obtain ⟨-, hlength, -⟩ := word.cut hfirst
  refine ⟨by decide +kernel, hfirst, hlength, operator.moves hsecond, hplace, rfl, fun k => ?_⟩
  rw [((ending.ends hthird).2 k).1, hplace]

end Cursor

end Source

end LetLang
