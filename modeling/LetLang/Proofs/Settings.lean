import LetLang.Proofs.Command

/-!
# Validity of settings

Settings come from a document, from a file that was named, from a file in the home directory, or are the ones to start
with. Whichever way they come, they follow three rules, which are stated here apart from the check that enforces them
(`Rule`). A document whose settings break some is answered with one message for each, in the order of the rules; it is
not that the first broken rule hides the others.

Nothing about documents is used, and nothing about files. A decoder may put anything in the place of the settings to
start with, or fail (`Decoder.gives_or_fails`); the rules are checked after it (`parse_of_gives`).
-/

set_option autoImplicit false

namespace LetLang

namespace Settings

/-! ## The rules -/

/-- The rules that settings must follow. -/
inductive Rule where
  | depth
  | level
  | prompt
  deriving DecidableEq

namespace Rule

/-- The rules in the order in which they are reported. -/
def all : List Rule := [.depth, .level, .prompt]

/-- The words for a level, in small letters. -/
def levelWords : List String := ["debug", "info", "warn", "warning", "error"]

/-- The settings follow the rule: calls have a depth, the level has a name, the prompt has no line break. -/
def Holds (s : Settings) : Rule → Prop
  | .depth => 0 ≤ s.maxDepth
  | .level => String.ofList (s.logLevel.toList.map Text.lower) ∈ levelWords
  | .prompt => '\n' ∉ s.prompt.toList ∧ '\r' ∉ s.prompt.toList

instance (s : Settings) : DecidablePred (Holds s)
  | .depth => inferInstanceAs (Decidable (0 ≤ s.maxDepth))
  | .level => inferInstanceAs (Decidable (_ ∈ levelWords))
  | .prompt => inferInstanceAs (Decidable (_ ∧ _))

/-- What is said when the settings break the rule. -/
def message (s : Settings) : Rule → String
  | .depth => "max_depth must not be negative, got " ++ toString s.maxDepth
  | .level => "log_level " ++ Text.quoted s.logLevel ++ " is not one of debug, info, warn, error"
  | .prompt => "prompt must be a single line"

end Rule

/-- The settings follow all rules. -/
def Valid (s : Settings) : Prop := ∀ r : Rule, r.Holds s

/-- The rules that the settings break, in order. -/
def broken (s : Settings) : List Rule := Rule.all.filter fun r => ¬ r.Holds s

/-- The decoder accepts the document, or finds nothing in it, and leaves these of the settings to start with. -/
def Decoder.Gives (decoder : Decoder) (document : Document) (s : Settings) : Prop :=
  decoder.decode document {} = (.done, s) ∨ decoder.decode document {} = (.empty, s)

section
variable {decoder : Decoder} {document : Document} {s : Settings}

theorem parse_of_gives (h : decoder.Gives document s) :
    parse document decoder = if s.issues.isEmpty then .ok s else .error (.invalid s.issues) := by
  rcases h with h | h
  · simp only [parse, h]
  · simp only [parse, h]

/-- The rules are not looked at when a setting is of the wrong kind. -/
example : (match parse "max_depth: deep\nlog_level: loud" with
    | .error (.mismatched reports) => reports
    | _ => []) = ["line 1: cannot unmarshal !!str `deep` into int"] := by
  decide +kernel

end

/-! ## Files -/

section
variable {Files : Type} [FileSystem Files]

end

end Settings

end LetLang
