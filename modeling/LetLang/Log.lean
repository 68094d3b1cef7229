import LetLang.Machine
import LetLang.Text.Blank
import LetLang.Text.Quoted

/-!
# Log lines

A log line is a level, a message and named values, written as `name=value` and separated by spaces. A
value is quoted when it would not read back as one word: when it is empty, or has a space, a quotation
mark, an equals sign or anything that is not visible.
-/

set_option autoImplicit false

namespace LetLang

/-- How much a line of the log matters. -/
inductive Level where
  | debug
  | info
  | warn
  | error
  deriving DecidableEq, Repr, Inhabited

namespace Level

/-- The name a level has in the log. -/
def name : Level → String
  | .debug => "DEBUG"
  | .info => "INFO"
  | .warn => "WARN"
  | .error => "ERROR"

/-- Levels in increasing order. -/
def rank : Level → Nat
  | .debug => 0
  | .info => 1
  | .warn => 2
  | .error => 3

/-- Whether a log that starts at level `l` shows lines of level `k`. -/
def shows (l k : Level) : Bool := l.rank ≤ k.rank

end Level

/-- Whether a character keeps a value from being written without quotation marks. Beyond ASCII these are
blanks, characters that are not printable, and the replacement character. -/
def Text.breaksWord (c : Char) : Bool :=
  if c.toNat < 0x80 then c.toNat ≤ 0x20 || c == '=' || c == '"'
  else c.toNat == 0xfffd || isBlank c || !isPrintable c

/-- A value as one word of a log line. -/
def Text.word (s : String) : String :=
  if s.isEmpty || s.toList.any breaksWord then quoted s else s

/-- A line of the log. -/
structure LogLine where
  level : Level
  message : String
  attributes : List (String × String)
  deriving DecidableEq, Repr, Inhabited

/-- The text of a line, without its end. -/
def LogLine.text (l : LogLine) : String :=
  " ".intercalate ((("level", l.level.name) :: ("msg", l.message) :: l.attributes).map
    fun a => a.1 ++ "=" ++ Text.word a.2)

/-- What an event leaves in the log, if anything. -/
def Event.logLine? : Event → Option LogLine
  | .called depth args =>
    some ⟨.debug, "function call",
      [("depth", toString depth), ("argument-count", toString args)]⟩
  | .failed fault => some ⟨.debug, "evaluation error", [("message", fault.message)]⟩
  | .checked | .bound _ _ _ => none

/-- The log of a run, in order. -/
def Machine.log (m : Machine) : List LogLine :=
  m.events.filterMap Event.logLine?

end LetLang
