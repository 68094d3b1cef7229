import LetLang.Log
import LetLang.Path

/-!
# Settings

What a user can choose: the prompt, the file that keeps the history of lines, how deep calls may nest, and
from which level on the log is shown. Settings are valid when three rules hold; `issues` lists those that
do not, always in the same order.
-/

set_option autoImplicit false

namespace LetLang

/-- The settings; each has a value from the start. -/
structure Settings where
  prompt : String := ">> "
  historyFile : String := "~/.monkey_history"
  maxDepth : Int := defaultMaxDepth
  logLevel : String := "warn"
  deriving DecidableEq, Repr, Inhabited

/-- The small letter of a letter, as far as that is a letter of ASCII: besides the capitals of ASCII the
dotted capital I and the sign for kelvin have one. -/
def Text.lower (c : Char) : Char :=
  if c == '\u0130' then 'i' else if c == '\u212a' then 'k' else c.toLower

/-- The level that a word names. Capitals do not matter. -/
def Level.ofName? (word : String) : Option Level :=
  match String.ofList (word.toList.map Text.lower) with
  | "debug" => some .debug
  | "info" => some .info
  | "warn" | "warning" => some .warn
  | "error" => some .error
  | _ => none

/-- A rule that settings break. -/
inductive Settings.Issue where
  | negativeDepth (depth : Int)
  | unknownLevel (word : String)
  | brokenPrompt
  deriving DecidableEq, Repr, Inhabited

namespace Settings

/-- The wording of an issue. -/
def Issue.message : Issue → String
  | .negativeDepth n => "max_depth must not be negative, got " ++ toString n
  | .unknownLevel w =>
    "log_level " ++ Text.quoted w ++ " is not one of debug, info, warn, error"
  | .brokenPrompt => "prompt must be a single line"

/-- The rules that the settings break. -/
def issues (s : Settings) : List Issue :=
  (if s.maxDepth < 0 then [.negativeDepth s.maxDepth] else [])
    ++ (if (Level.ofName? s.logLevel).isNone then [.unknownLevel s.logLevel] else [])
    ++ (if s.prompt.toList.any fun c => c == '\n' || c == '\r' then [.brokenPrompt] else [])

/-- What is said of settings with such issues. -/
def complaint (issues : List String) : String :=
  if issues.isEmpty then "config: invalid configuration"
  else "config validation failed:" ++ "".intercalate (issues.map ("\n- " ++ ·))

/-- The level from which on the log is shown. -/
def level (s : Settings) : Level := (Level.ofName? s.logLevel).getD .info

/-- The path of the history file; a tilde at its front stands for the home directory. Without a path, or
without a home directory when one is needed, no history is kept. -/
def historyPath (home : String) (s : Settings) : String :=
  match s.historyFile.toList with
  | '~' :: rest =>
    if rest.isEmpty || rest.head? == some '/' then
      if home.isEmpty then "" else Path.join home (String.ofList rest)
    else s.historyFile
  | _ => s.historyFile

end Settings

end LetLang
