/-!
# Places in a text

Reading a document needs to know where it is: indentation decides what belongs together. A cursor is the
text that is left, and how many characters, lines and columns lie before it.

Five characters break a line, and a carriage return with a line feed after it is one break. In what is
read a break is a line feed, except that the two separators of lines and paragraphs stay what they are.

Every move forward leaves a shorter text or, if there was nothing to pass, the same one
(`length_skip_le`, `length_of_takeBreak`, …); readers that move on until something stops them end for this
reason.
-/

set_option autoImplicit false

namespace LetLang.Yaml

/-- A place in a text and the text from there on. -/
structure Cursor where
  index : Nat := 0
  line : Nat := 0
  column : Nat := 0
  rest : List Char
  deriving Repr, Inhabited

/-! ## Sorts of characters -/

/-- Space or tab. -/
def isBlank (c : Char) : Bool := c == ' ' || c == '\t'

/-- Whether a character breaks a line. -/
def isBreak (c : Char) : Bool :=
  c == '\n' || c == '\r' || c == '\u0085' || c == '\u2028' || c == '\u2029'

/-- What a line break is read as. -/
def breakText (c : Char) : Char := if c == '\u2028' || c == '\u2029' then c else '\n'

/-- A letter, digit, dash or underscore: what the names of anchors and directives are made of. -/
def isNameChar (c : Char) : Bool :=
  ('0' ≤ c && c ≤ '9') || ('A' ≤ c && c ≤ 'Z') || ('a' ≤ c && c ≤ 'z') || c == '_' || c == '-'

/-- Whether a line ends here: with a break or with the text. -/
def endsLine : List Char → Bool
  | [] => true
  | c :: _ => isBreak c

/-- Whether a word ends here: with a blank or with the line. -/
def endsWord : List Char → Bool
  | [] => true
  | c :: _ => isBlank c || isBreak c

namespace Cursor

/-! ## Moves -/

/-- The next character. -/
def head? (cur : Cursor) : Option Char := cur.rest.head?

/-- So many characters further on the same line. -/
def skip (cur : Cursor) (n : Nat) : Cursor :=
  ⟨cur.index + n, cur.line, cur.column + n, cur.rest.drop n⟩

/-- Past the characters of a sort, on the same line. -/
def skipWhile (cur : Cursor) (p : Char → Bool) : Cursor :=
  cur.skip (cur.rest.takeWhile p).length

/-- Past blanks. -/
def skipBlanks (cur : Cursor) : Cursor := cur.skipWhile isBlank

/-- Past the rest of the line, up to its break. -/
def skipLine (cur : Cursor) : Cursor := cur.skipWhile (!isBreak ·)

/-- The line break that stands here, as it is read, and the place after it. -/
def takeBreak (cur : Cursor) : Option (Char × Cursor) :=
  match cur.rest with
  | '\r' :: '\n' :: r => some ('\n', ⟨cur.index + 2, cur.line + 1, 0, r⟩)
  | c :: r => if isBreak c then some (breakText c, ⟨cur.index + 1, cur.line + 1, 0, r⟩) else none
  | [] => none

/-- Past the line break that stands here, if one does. -/
def skipBreak (cur : Cursor) : Cursor :=
  match cur.takeBreak with
  | some (_, after) => after
  | none => cur

theorem length_skip_le (cur : Cursor) (n : Nat) : (cur.skip n).rest.length ≤ cur.rest.length := by
  simp [skip]

theorem length_skip_lt {cur : Cursor} {n : Nat} (hn : 0 < n) (h : cur.rest ≠ []) :
    (cur.skip n).rest.length < cur.rest.length := by
  have := List.length_pos_iff.mpr h
  simp only [skip, List.length_drop]
  omega

theorem length_skipWhile_le (cur : Cursor) (p : Char → Bool) :
    (cur.skipWhile p).rest.length ≤ cur.rest.length :=
  length_skip_le cur _

/-- A line break is at least one character. -/
theorem length_of_takeBreak {cur after : Cursor} {c : Char} (h : cur.takeBreak = some (c, after)) :
    after.rest.length < cur.rest.length := by
  unfold takeBreak at h
  split at h
  · next hr =>
    cases h
    simp only [hr, List.length_cons]
    omega
  · next hr =>
    split at h
    · cases h
      simp only [hr, List.length_cons]
      omega
    · cases h
  · cases h

/-! ## Comments -/

/-- Past spaces, tabs, line feeds and carriage returns. -/
def skipRoom (cur : Cursor) : Cursor :=
  match _hc : cur.rest with
  | [] => cur
  | c :: _ =>
    if c == ' ' || c == '\t' then (cur.skip 1).skipRoom
    else if c == '\n' || c == '\r' then
      match _hb : cur.takeBreak with
      | some (_, after) => after.skipRoom
      | none => cur
    else cur
termination_by cur.rest.length
decreasing_by
  · exact length_skip_lt Nat.one_pos (by simp [_hc])
  · exact length_of_takeBreak _hb

theorem length_skipRoom_le (cur : Cursor) : cur.skipRoom.rest.length ≤ cur.rest.length := by
  fun_induction skipRoom cur with
  | case1 => exact Nat.le_refl _
  | case2 cur _ _ _ _ ih => exact Nat.le_trans ih (length_skip_le cur 1)
  | case3 _ _ _ _ _ _ _ _ hb ih => exact Nat.le_trans ih (Nat.le_of_lt (length_of_takeBreak hb))
  | case4 => exact Nat.le_refl _
  | case5 => exact Nat.le_refl _

/-- How far a comment looks for the next one. -/
def commentReach : Nat := 512

/-- Past the comment that starts here, and past those on the lines below it, up to the end of the last
one's line. Only empty lines may stand between two of them, and not too many characters. -/
def skipComments (cur : Cursor) : Cursor :=
  let stop := cur.skipLine
  let next := stop.skipRoom
  if next.rest.length < stop.rest.length && next.head? == some '#'
      && next.index < stop.index + commentReach then
    next.skipComments
  else stop
termination_by cur.rest.length
decreasing_by
  rename_i h
  simp only [Bool.and_eq_true, decide_eq_true_eq] at h
  exact Nat.lt_of_lt_of_le h.1.1 (length_skipWhile_le cur _)

theorem length_skipComments_le (cur : Cursor) :
    cur.skipComments.rest.length ≤ cur.rest.length := by
  fun_induction skipComments cur with
  | case1 cur _ _ _ ih =>
    exact Nat.le_trans ih (Nat.le_trans (length_skipRoom_le _) (length_skipWhile_le cur _))
  | case2 cur => exact length_skipWhile_le cur _

/-- Past the comment that ends the line, if one does. -/
def skipTrailingComment (cur : Cursor) : Cursor :=
  let stop := cur.skipBlanks
  if stop.head? == some '#' && stop.index < cur.index + commentReach then stop.skipLine else cur

/-! ## Marks of documents -/

/-- Whether `---` or `...` stands here, alone at the start of a line. -/
def atMark (cur : Cursor) : Bool :=
  cur.column == 0 &&
    match cur.rest with
    | '-' :: '-' :: '-' :: r => endsWord r
    | '.' :: '.' :: '.' :: r => endsWord r
    | _ => false

end Cursor

end LetLang.Yaml
