import LetLang.Session
import LetLang.Text.Lines
import LetLang.Writer

/-!
# The prompt loop

Reads a text line by line and evaluates each line in one session: prompt, line, what the line showed,
and again, until the text ends or a line says `exit`. One prompt is written for each line read and one
more for the end.

Nobody minds if a prompt is not written. A result that cannot be written ends the loop, and so does a
line that is too long to be read.
-/

set_option autoImplicit false

namespace LetLang.PromptLoop

/-- The prompt unless something else is said. -/
def defaultPrompt : String := ">> "

/-- The number of bytes from which on a line is too long. -/
def lineLimit : Nat := 65536

/-- What the loop says of a line that is too long. -/
def tooLong : String := "bufio.Scanner: token too long"

/-- How a loop ended. -/
structure End where
  session : Session
  writer : Writer
  error : Option String

/-- The loop over the lines that are left. -/
def run (patience : Patience) (fuel : Nat) (prompt : String) :
    List Text.Line → Session → Writer → Option End
  | [], s, w => some ⟨s, w.offer prompt, none⟩
  | l :: ls, s, w =>
    let w := w.offer prompt
    if lineLimit ≤ l.bytes.length then some ⟨s, w, some tooLong⟩
    else if Text.dropReturn l.bytes = Session.exitLine then some ⟨s, w, none⟩
    else
      match s.eval patience fuel (Text.dropReturn l.bytes) with
      | none => none
      | some (r, s) =>
        match w.writeAll r.writes with
        | (none, w) => run patience fuel prompt ls s w
        | (some e, w) => some ⟨s, w, some e⟩

end LetLang.PromptLoop
