import LetLang.Script
import LetLang.Settings.Document

/-!
# Settings in a file

Settings come from a file that was named, else from a file in the home directory if there is one, else
they are the ones to start with. What a decoder makes of a file must be valid.
-/

set_option autoImplicit false

namespace LetLang.Settings

/-- The settings that a decoder makes of a document and of those to start with, if they are valid. -/
def parse (document : Document) (decoder : Decoder := .yaml) : Except Rejection Settings :=
  match decoder.decode document {} with
  | (.failed fault, _) => .error (.undecoded fault)
  | (.done, s) | (.empty, s) => if s.issues.isEmpty then .ok s else .error (.invalid s.issues)

/-- The name of the file that is looked for in the home directory. -/
def fileName : String := ".monkey.yaml"

/-- Why settings could not be loaded. -/
inductive LoadError where
  | emptyPath
  | cannotOpen (path : String) (fault : FileFault)
  | rejected (path : String) (reason : Rejection)
  deriving Inhabited

/-- The wording of an error. -/
def LoadError.message : LoadError → String
  | .emptyPath => "config: empty path"
  | .cannotOpen path fault => "config: open " ++ path ++ ": " ++ fault.message
  | .rejected path reason => "config: " ++ path ++ ": " ++ reason.message

/-- The settings in a file, given what reading it gave. A file that was opened but could not be read is left
to the decoder. -/
def ofFile (path : String) (content : Except FileFault (List UInt8)) (decoder : Decoder) :
    Except LoadError Settings :=
  let parsed (document : Document) := (parse document decoder).mapError (LoadError.rejected path)
  match content with
  | .ok bytes => parsed { bytes }
  | .error fault =>
    if fault.opened then parsed { bytes := [], fault := some fault.message }
    else .error (.cannotOpen path fault)

/-- The path of the settings file in the home directory; nothing without a home directory. -/
def homeFile? (home : String) : Option String :=
  if home.isEmpty then none else some (Path.join home fileName)

/-- Loads the settings in the file of a path. -/
def load (path : String) (decoder : Decoder := .yaml) : Script (Except LoadError Settings) := do
  if path.isEmpty then return .error .emptyPath
  else return ofFile path (← Script.readFile path) decoder

/-- Loads the settings in the file of a path if one is given, else those in the home directory's file if
it exists; else they are the ones to start with. -/
def resolve (home path : String) (decoder : Decoder := .yaml) : Script (Except LoadError Settings) := do
  if path.isEmpty then
    match homeFile? home with
    | none => return .ok {}
    | some candidate =>
      if ← Script.hasFile candidate then load candidate decoder else return .ok {}
  else load path decoder

end LetLang.Settings
