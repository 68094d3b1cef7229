import LetLang.Yaml.Problem

/-!
# Gaps between words

A scalar may run over several lines, which are then folded: one line break becomes a space, and of several
the first is dropped. Breaks that are more than a line feed are kept. What lies between two words is
collected as a `Gap` first, because only the next word decides whether it belongs to the scalar at all.
-/

set_option autoImplicit false

namespace LetLang.Yaml

/-- What lies between two words of a scalar: blanks, or line breaks with the blanks around them. An
escaped break leaves no trace as the `first` one. -/
inductive Gap where
  | blanks (chars : List Char)
  | broken (first : Option Char) (more : List Char)

namespace Gap

/-- No gap. -/
def none : Gap := .blanks []

/-- A gap with one more blank. Blanks around line breaks do not count. -/
def blank (g : Gap) (c : Char) : Gap :=
  match g with
  | .blanks cs => .blanks (cs ++ [c])
  | .broken first more => .broken first more

/-- A gap with one more line break. Blanks before it do not count. -/
def newline (g : Gap) (c : Char) : Gap :=
  match g with
  | .blanks _ => .broken (some c) []
  | .broken first more => .broken first (more ++ [c])

/-- Whether the gap reaches over a line break. -/
def isBroken : Gap → Bool
  | .blanks _ => false
  | .broken _ _ => true

/-- What becomes of a gap in the scalar. -/
def text : Gap → List Char
  | .blanks cs => cs
  | .broken first more =>
    if first == some '\n' then (if more.isEmpty then [' '] else more) else first.toList ++ more

end Gap

/-- The gap at a place, after the gap `g`, in a scalar that began on the line `start`. A tab before the
column `indent` of a new line cannot be told from indentation, and is refused. -/
def Cursor.takeGap (indent start : Nat) (g : Gap) (cur : Cursor) : Except Problem (Gap × Cursor) :=
  match _hb : cur.takeBreak with
  | some (c, after) => after.takeGap indent start (g.newline c)
  | none =>
    match _hc : cur.rest with
    | [] => .ok (g, cur)
    | c :: _ =>
      if !isBlank c then .ok (g, cur)
      else if c == '\t' && g.isBroken && cur.column < indent then
        .error (.inWord start cur "found a tab character that violates indentation")
      else (cur.skip 1).takeGap indent start (g.blank c)
termination_by cur.rest.length
decreasing_by
  · exact Cursor.length_of_takeBreak _hb
  · exact Cursor.length_skip_lt Nat.one_pos (by simp [_hc])

theorem Cursor.length_of_takeGap {indent start : Nat} {g g' : Gap} {cur after : Cursor}
    (h : cur.takeGap indent start g = .ok (g', after)) : after.rest.length ≤ cur.rest.length := by
  fun_induction Cursor.takeGap indent start g cur with
  | case1 _ _ _ _ hb ih => exact Nat.le_trans (ih h) (Nat.le_of_lt (length_of_takeBreak hb))
  | case2 => cases h; exact Nat.le_refl _
  | case3 => cases h; exact Nat.le_refl _
  | case4 => cases h
  | case5 _ cur _ _ _ _ _ _ ih => exact Nat.le_trans (ih h) (length_skip_le cur 1)

end LetLang.Yaml
