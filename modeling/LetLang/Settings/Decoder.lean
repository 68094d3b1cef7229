import LetLang.Settings

/-!
# Decoders of settings

Settings are read from a document by a decoder. It is given the settings to start with and puts what it finds
in the document in their place; or it fails, and says why. That is all that is known of a decoder: any one
will do, and what it makes of a document is checked afterwards.
-/

set_option autoImplicit false

namespace LetLang.Settings

/-- A document as it is read: its bytes, and why reading stopped if not at its end. -/
structure Document where
  bytes : List UInt8
  fault : Option String := none
  deriving DecidableEq, Repr, Inhabited

/-- A document that is a text. -/
def Document.ofText (text : String) : Document := { bytes := text.toUTF8.data.toList }

instance : Coe String Document := ⟨Document.ofText⟩

/-- Why a document cannot be decoded. -/
inductive Decoder.Fault where
  /-- It could not be read to its end. -/
  | unreadable (cause : String)
  /-- It has no meaning. -/
  | notYaml (problem : String)
  /-- It has a meaning, but not that of settings. -/
  | mismatched (reports : List String)
  deriving DecidableEq, Repr, Inhabited

/-- The wording of a fault. -/
def Decoder.Fault.message : Decoder.Fault → String
  | .unreadable cause => "yaml: input error: " ++ cause
  | .notYaml problem => "yaml: " ++ problem
  | .mismatched reports => "yaml: unmarshal errors:" ++ "".intercalate (reports.map ("\n  " ++ ·))

/-- What comes of decoding a document. -/
inductive Decoder.Outcome where
  | done
  /-- There was nothing in the document. -/
  | empty
  | failed (fault : Decoder.Fault)
  deriving DecidableEq, Repr, Inhabited

/-- A decoder. -/
structure Decoder where
  /-- Decodes a document over settings: what came of it, and the settings then. -/
  decode : Document → Settings → Decoder.Outcome × Settings

/-- Why a document gives no settings. -/
inductive Rejection where
  | undecoded (fault : Decoder.Fault)
  | invalid (issues : List Issue)
  deriving DecidableEq, Repr, Inhabited

namespace Rejection

/-! The faults of a decoder, for those who tell them apart. -/

/-- The document could not be read to its end. -/
@[match_pattern]
abbrev unreadable (cause : String) : Rejection := .undecoded (.unreadable cause)

/-- The document has no meaning. -/
@[match_pattern]
abbrev notYaml (problem : String) : Rejection := .undecoded (.notYaml problem)

/-- The document has a meaning, but not that of settings. -/
@[match_pattern]
abbrev mismatched (reports : List String) : Rejection := .undecoded (.mismatched reports)

/-- The wording of a rejection. -/
def message : Rejection → String
  | .undecoded fault => "parse: " ++ fault.message
  | .invalid is => complaint (is.map Issue.message)

end Rejection

end LetLang.Settings
