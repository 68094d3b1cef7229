import LetLang.Text.Digits
import LetLang.Yaml.Gap

/-!
# Scalars as they are written

Four ways to write a scalar: plainly, between single or double quotation marks, and as a block of lines.
All but the last may run over several lines, which are then folded.

Each reader starts at the scalar's first character and gives the text with the place after it.
-/

set_option autoImplicit false

namespace LetLang.Yaml

/-! ## Plain scalars -/

/-- The signs of flow collections, which end a plain word there. -/
def isFlowSign (c : Char) : Bool :=
  c == ',' || c == '[' || c == ']' || c == '\x7b' || c == '\x7d'

/-- Whether a plain word ends before the character `c` with `r` after it. In a flow collection its
punctuation ends a word too. -/
def endsPlain (flow : Bool) (c : Char) (r : List Char) : Bool :=
  isBlank c || isBreak c || (c == ':' && endsWord r) || (flow && (isFlowSign c || c == '?'))

/-- The word at the front of a text. -/
def plainWord (flow : Bool) : List Char → List Char
  | [] => []
  | c :: r => if endsPlain flow c r then [] else c :: plainWord flow r

/-- Whether a plain scalar can start here. Most punctuation cannot; a dash, a question mark or a colon can
when a word follows at once, the last two only outside flow collections. -/
def startsPlain (flow : Bool) : List Char → Bool
  | [] => false
  | c :: r =>
    if c == '-' then !(r.head?.any isBlank)
    else if c == '?' || c == ':' then !flow && !endsWord r
    else !(isBlank c || isBreak c || isFlowSign c || "#&*!|>'\"%@`".toList.contains c)

theorem plainWord_eq_nil {flow : Bool} {cs : List Char} (h : cs = []) : plainWord flow cs = [] := by
  simp [h, plainWord]

/-- The words of a plain scalar from a place on, after `acc` and the gap `g`, and whether a line break lies
between the last of them and the place after it, which is that of whatever comes next. Outside flow
collections its further lines are indented at least to the column `indent`. -/
def plainWords (flow : Bool) (indent start : Nat) (acc : List Char) (g : Gap) (cur : Cursor) :
    Except Problem (List Char × Bool × Cursor) :=
  let word := plainWord flow cur.rest
  if _hw : cur.atMark || cur.head? == some '#' || word.isEmpty then .ok (acc, g.isBroken, cur)
  else
    let acc := acc ++ g.text ++ word
    match _hg : (cur.skip word.length).takeGap indent start .none with
    | .error p => .error p
    | .ok (g, after) =>
      if !flow && after.column < indent then .ok (acc, g.isBroken, after)
      else plainWords flow indent start acc g after
termination_by cur.rest.length
decreasing_by
  have hne : plainWord flow cur.rest ≠ [] := by
    intro h
    simp [word, h] at _hw
  exact Nat.lt_of_le_of_lt (Cursor.length_of_takeGap _hg)
    (Cursor.length_skip_lt (List.length_pos_iff.mpr hne) (fun h => hne (plainWord_eq_nil h)))

/-- A plain scalar. -/
def plain (flow : Bool) (indent : Nat) (cur : Cursor) : Except Problem (List Char × Bool × Cursor) :=
  plainWords flow indent cur.line [] .none cur

/-! ## Quoted scalars -/

/-- The character that so many hexadecimal digits stand for. -/
def hexEscape (start : Nat) (cur : Cursor) (width : Nat) : Except Problem Char :=
  let digits := cur.rest.take width
  match if digits.length < width then none else Text.natural? 16 digits with
  | none => .error (.inWord start cur "did not find expected hexdecimal number")
  | some n =>
    if h : n.isValidChar then .ok (Char.ofNatAux n h)
    else .error (.inWord start cur "found invalid Unicode character escape code")

/-- What the backslash here stands for with what follows it, and how many characters of that belong to
it. -/
def escape (start : Nat) (cur : Cursor) : Except Problem (Char × Nat) :=
  match cur.rest.drop 1 with
  | '0' :: _ => .ok ('\x00', 1)
  | 'a' :: _ => .ok ('\x07', 1)
  | 'b' :: _ => .ok ('\x08', 1)
  | 't' :: _ | '\t' :: _ => .ok ('\t', 1)
  | 'n' :: _ => .ok ('\n', 1)
  | 'v' :: _ => .ok ('\x0b', 1)
  | 'f' :: _ => .ok ('\x0c', 1)
  | 'r' :: _ => .ok ('\r', 1)
  | 'e' :: _ => .ok ('\x1b', 1)
  | ' ' :: _ => .ok (' ', 1)
  | '"' :: _ => .ok ('"', 1)
  | '\'' :: _ => .ok ('\'', 1)
  | '\\' :: _ => .ok ('\\', 1)
  | 'N' :: _ => .ok ('\u0085', 1)
  | '_' :: _ => .ok ('\u00a0', 1)
  | 'L' :: _ => .ok ('\u2028', 1)
  | 'P' :: _ => .ok ('\u2029', 1)
  | 'x' :: _ => (hexEscape start (cur.skip 2) 2).map (·, 3)
  | 'u' :: _ => (hexEscape start (cur.skip 2) 4).map (·, 5)
  | 'U' :: _ => (hexEscape start (cur.skip 2) 8).map (·, 9)
  | _ => .error (.inWord start cur "found unknown escape character")

/-- The characters of a quoted scalar from a place on, after `acc` and the gap `g`, up to the quotation
mark `q` that ends it. Only double quotation marks know escapes; between single ones the mark itself is
written twice. `start` is the line on which the scalar began. -/
def quotedFrom (q : Char) (start : Nat) (acc : List Char) (g : Gap) (cur : Cursor) :
    Except Problem (List Char × Cursor) :=
  if cur.atMark then .error (.inWord start cur "found unexpected document indicator")
  else match _hb : cur.takeBreak with
    | some (c, after) => quotedFrom q start acc (g.newline c) after
    | none =>
      match _hc : cur.rest with
      | [] => .error (.inWord start cur "found unexpected end of stream")
      | c :: r =>
        if isBlank c then quotedFrom q start acc (g.blank c) (cur.skip 1)
        else if c == q && q == '\'' && r.head? == some q then
          quotedFrom q start (acc ++ g.text ++ [q]) .none (cur.skip 2)
        else if c == q then .ok (acc ++ g.text, cur.skip 1)
        else if c == '\\' && q == '"' then
          match _he : (cur.skip 1).takeBreak with
          | some (_, after) => quotedFrom q start (acc ++ g.text) (.broken none []) after
          | none =>
            match escape start cur with
            | .error p => .error p
            | .ok (d, n) => quotedFrom q start (acc ++ g.text ++ [d]) .none (cur.skip (n + 1))
        else quotedFrom q start (acc ++ g.text ++ [c]) .none (cur.skip 1)
termination_by cur.rest.length
decreasing_by
  · exact Cursor.length_of_takeBreak _hb
  · exact Cursor.length_skip_lt Nat.one_pos (by simp [_hc])
  · exact Cursor.length_skip_lt Nat.two_pos (by simp [_hc])
  · exact Nat.lt_of_lt_of_le (Cursor.length_of_takeBreak _he) (Cursor.length_skip_le cur 1)
  · exact Cursor.length_skip_lt (Nat.succ_pos n) (by simp [_hc])
  · exact Cursor.length_skip_lt Nat.one_pos (by simp [_hc])

/-- A scalar between two marks `q`, at the first one. -/
def quoted (q : Char) (cur : Cursor) : Except Problem (List Char × Cursor) :=
  quotedFrom q cur.line [] .none (cur.skip 1)

/-! ## Blocks of lines -/

/-- What becomes of the line breaks at the end of a block: dropped, reduced to one, or kept. -/
inductive Chomp where
  | strip
  | clip
  | keep
  deriving DecidableEq

/-- The sign of a treatment that is not the usual one. -/
def Chomp.ofSign? (c : Char) : Option Chomp :=
  if c == '-' then some .strip else if c == '+' then some .keep else none

/-- A digit that gives a block's indentation; nothing if this is no digit. -/
def indentDigit (cur : Cursor) : Except Problem (Option Nat) :=
  match cur.head? with
  | some '0' => .error (.inWord cur.line cur "found an indentation indicator equal to 0")
  | some c => .ok (if c.isDigit then some (c.toNat - 48) else none)
  | none => .ok none

/-- The signs after the mark of a block, in either order: how its end is treated, its indentation (zero if
not given), and how many characters these are. -/
def blockHeader (cur : Cursor) : Except Problem (Chomp × Nat × Nat) := do
  match cur.head?.bind Chomp.ofSign? with
  | some chomp =>
    match ← indentDigit (cur.skip 1) with
    | some n => return (chomp, n, 2)
    | none => return (chomp, 0, 1)
  | none =>
    match ← indentDigit cur with
    | some n =>
      match (cur.skip 1).head?.bind Chomp.ofSign? with
      | some chomp => return (chomp, n, 2)
      | none => return (.clip, n, 1)
    | none => return (.clip, 0, 0)

/-- Past indentation and empty lines: the breaks of the empty lines after `breaks`, the widest indentation
met, and the place of the first character that is neither. An `indent` of zero means that it is not known
yet. -/
def blockBreaks (indent start : Nat) (breaks : List Char) (widest : Nat) (cur : Cursor) :
    Except Problem (List Char × Nat × Cursor) :=
  let spaces := (cur.rest.takeWhile (· == ' ')).length
  let stop := cur.skip (if indent = 0 then spaces else min spaces (indent - cur.column))
  if (indent = 0 || stop.column < indent) && stop.head? == some '\t' then
    .error (.inWord start stop "found a tab character where an indentation space is expected")
  else match _hb : stop.takeBreak with
    | some (c, after) => blockBreaks indent start (breaks ++ [c]) (max widest stop.column) after
    | none => .ok (breaks, max widest stop.column, stop)
termination_by cur.rest.length
decreasing_by
  exact Nat.lt_of_lt_of_le (Cursor.length_of_takeBreak _hb) (Cursor.length_skip_le cur _)

theorem length_of_blockBreaks {indent start widest widest' : Nat} {breaks breaks' : List Char}
    {cur after : Cursor}
    (h : blockBreaks indent start breaks widest cur = .ok (breaks', widest', after)) :
    after.rest.length ≤ cur.rest.length := by
  fun_induction blockBreaks indent start breaks widest cur with
  | case1 => cases h
  | case2 _ _ cur _ _ _ _ _ hb ih =>
    exact Nat.le_trans (ih h)
      (Nat.le_trans (Nat.le_of_lt (Cursor.length_of_takeBreak hb)) (Cursor.length_skip_le cur _))
  | case3 _ _ cur =>
    simp only [Except.ok.injEq, Prod.mk.injEq] at h
    exact h.2.2 ▸ Cursor.length_skip_le cur _

/-- The lines of a block from a place on, after `acc`. `lead` is the break that ended the line before,
`before` says whether that line started with a blank, and `breaks` are those of the empty lines after it.
Folding joins two lines by a space unless one of them is indented further or empty lines stand between
them. What is left at the end is the last break and those of the empty lines after it. -/
def blockLines (folded : Bool) (indent start : Nat) (acc : List Char) (lead : Option Char)
    (before : Bool) (breaks : List Char) (cur : Cursor) :
    Except Problem (List Char × Option Char × List Char × Cursor) :=
  if cur.column = indent && !cur.rest.isEmpty then
    let blank := cur.rest.head?.any isBlank
    let joint :=
      if folded && lead == some '\n' && !before && !blank then (if breaks.isEmpty then [' '] else [])
      else lead.toList
    let acc := acc ++ joint ++ breaks ++ cur.rest.takeWhile (!isBreak ·)
    match _hb : cur.skipLine.takeBreak with
    | none => .ok (acc, none, [], cur.skipLine)
    | some (c, next) =>
      match _hn : blockBreaks indent start [] 0 next with
      | .error p => .error p
      | .ok (breaks, _, after) => blockLines folded indent start acc (some c) blank breaks after
  else .ok (acc, lead, breaks, cur)
termination_by cur.rest.length
decreasing_by
  exact Nat.lt_of_le_of_lt (length_of_blockBreaks _hn)
    (Nat.lt_of_lt_of_le (Cursor.length_of_takeBreak _hb) (Cursor.length_skipWhile_le cur _))

/-- A block scalar, at its mark; `parent` is one more than the column of the collection it stands in. -/
def block (parent : Nat) (cur : Cursor) : Except Problem (List Char × Cursor) := do
  let folded := cur.head? == some '>'
  let (chomp, extra, n) ← blockHeader (cur.skip 1)
  let header := (cur.skip (n + 1)).skipBlanks
  let header := if header.head? == some '#' then header.skipLine else header
  if !endsLine header.rest then
    .error (.inWord cur.line header "did not find expected comment or line break")
  let given := if extra = 0 then 0 else (parent - 1) + extra
  let (breaks, widest, first) ← blockBreaks given cur.line [] 0 header.skipBreak
  let indent := if given = 0 then max (max widest parent) 1 else given
  let (acc, lead, breaks, after) ← blockLines folded indent cur.line [] none false breaks first
  let tail :=
    match chomp with
    | .strip => []
    | .clip => lead.toList
    | .keep => lead.toList ++ breaks
  return (acc ++ tail, after)

end LetLang.Yaml
