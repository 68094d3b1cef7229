import LetLang.Text.Lines

/-!
# History

The lines a user typed, oldest first. Which of them are kept, and how they are written down, is up to a keeper
(`History.Keeper`). The one at hand does not keep a line that repeats the one before it, keeps only the newest
thousand, and gives each a line of the history file.
-/

set_option autoImplicit false

namespace LetLang

/-- Lines that were typed, oldest first. -/
abbrev History := List (List UInt8)

namespace History

/-- How many lines are kept. -/
def limit : Nat := 1000

/-- How long a line of a history file must not be, its end not counted. -/
def lineLimit : Nat := 4096

/-- A history without the lines that are one too many. -/
def trim (h : History) : History := h.drop (h.length - limit)

/-- Adds a line that was typed. -/
def add (h : History) (line : List UInt8) : History :=
  if h.getLast? = some line then h else trim (h ++ [line])

/-- The lines of a history file that can be read: those before the first that is too long or no text. -/
def readable : List Text.Line → History
  | [] => []
  | l :: ls =>
    if lineLimit ≤ l.bytes.length || (String.fromUTF8? ⟨l.content.toArray⟩).isNone then []
    else l.content :: readable ls

/-- The history in a file. -/
def ofFile (content : List UInt8) : History := trim (readable (Text.lines content))

/-- What a history file holds. -/
def toFile (h : History) : List UInt8 := h.flatMap (· ++ [10])

/-- Someone who keeps a history. -/
structure Keeper where
  /-- The history that a file holds. -/
  ofFile : List UInt8 → History := History.ofFile
  /-- The history after one more line. -/
  add : History → List UInt8 → History := History.add
  /-- What is written to the file in the end. -/
  toFile : History → List UInt8 := History.toFile

end History

end LetLang
