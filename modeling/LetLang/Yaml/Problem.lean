import LetLang.Yaml.Cursor

/-!
# Problems with a text

Why a text is no document. A problem names a line when it knows one, and which line that is depends on
who noticed it: someone who reads characters and cannot make a word of them, or someone who reads words
and cannot make a document of them.
-/

set_option autoImplicit false

namespace LetLang.Yaml

/-- What is wrong with a text, and on which line; line zero is not mentioned. `left` is how many characters
were left where it was noticed. -/
structure Problem where
  line : Nat
  what : String
  left : Nat := 0
  deriving DecidableEq, Repr, Inhabited

namespace Problem

/-- A word that cannot be read, in something that started on the line `start`, noticed at the place `here`;
lines count from zero. The line named is that of the start; if that is the first line of the text it is
the one where the problem showed, and the first line is never named. -/
def inWord (start : Nat) (here : Cursor) (what : String) : Problem :=
  ⟨if start != 0 then start + 1 else if here.line != 0 then here.line + 1 else 0, what,
    here.rest.length⟩

/-- Words that do not fit together. The line named is the one before, because by then the reader has gone
on to the next word. -/
def inOrder (start here : Nat) (what : String) : Problem :=
  ⟨if start != 0 then start else here, what, 0⟩

/-- A problem with what was read, not with how it was written: it has no line. -/
def inMeaning (what : String) : Problem := ⟨0, what, 0⟩

/-- A recursion bounded by the length of the text came to its bound; no caller sets it too low. -/
def outOfFuel : Problem := inMeaning "text too long"

/-- The wording of a problem. -/
def message (p : Problem) : String :=
  (if p.line = 0 then "" else "line " ++ toString p.line ++ ": ") ++ p.what

end Problem

end LetLang.Yaml
