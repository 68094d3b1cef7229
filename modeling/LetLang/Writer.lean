/-!
# Writers

A writer takes texts one after the other until its room is used up; from then on it refuses every text
and takes nothing of it. A writer of unlimited room refuses nothing. What it took is kept in order, each
write on its own, because a refusal falls between two writes and never inside one.
-/

set_option autoImplicit false

namespace LetLang

/-- Something to write to. -/
structure Writer where
  /-- How many writes it will still take; `none` means any number. -/
  room : Option Nat := none
  /-- What it says when it refuses. -/
  refusal : String := "write failed"
  /-- The texts it took, newest first. -/
  taken : List String := []
  deriving Repr, Inhabited

namespace Writer

/-- Offers a text; the answer is the refusal, if it was refused. -/
def write (w : Writer) (s : String) : Option String × Writer :=
  match w.room with
  | none => (none, { w with taken := s :: w.taken })
  | some 0 => (some w.refusal, w)
  | some (n + 1) => (none, { w with room := some n, taken := s :: w.taken })

/-- Offers texts in order and stops at the first refusal. -/
def writeAll (w : Writer) : List String → Option String × Writer
  | [] => (none, w)
  | s :: ss =>
    match w.write s with
    | (none, w) => w.writeAll ss
    | (some e, w) => (some e, w)

/-- Offers a text and does not care whether it was taken. -/
def offer (w : Writer) (s : String) : Writer := (w.write s).2

/-- All that was taken, as one text. -/
def text (w : Writer) : String := "".intercalate w.taken.reverse

end Writer

end LetLang
