/-!
# Lines

A text of bytes is cut into lines at line feeds. What follows the last line feed is a line too, unless
there is nothing. Whether a line was ended by a line feed or by the end of the text matters to some
readers, so a line keeps that.
-/

set_option autoImplicit false

namespace LetLang.Text

/-- A line: its bytes without the line feed, and whether a line feed ended it. -/
structure Line where
  bytes : List UInt8
  ended : Bool
  deriving DecidableEq, Repr, Inhabited

/-- The lines of a text. -/
def lines : List UInt8 → List Line
  | [] => []
  | b :: bs =>
    if b == 10 then ⟨[], true⟩ :: lines bs
    else match lines bs with
      | [] => [⟨[b], false⟩]
      | l :: ls => ⟨b :: l.bytes, l.ended⟩ :: ls

/-- Bytes without one carriage return at their end. -/
def dropReturn (bytes : List UInt8) : List UInt8 :=
  if bytes.getLast? == some 13 then bytes.dropLast else bytes

/-- The content of a line when a carriage return belongs to the line feed that follows it: the last line
of a text keeps one if no line feed does. -/
def Line.content (l : Line) : List UInt8 :=
  if l.ended then dropReturn l.bytes else l.bytes

end LetLang.Text
