/-!
# File systems

What a command needs of the files around it: to read one, to write one, and to look whether a path leads to
anything. Whoever has files says what comes of it; nothing is assumed of the answers.
-/

set_option autoImplicit false

namespace LetLang

/-- Why something could not be done with a file. -/
inductive FileFault.Cause where
  | missing
  | isDirectory
  | notDirectory
  | other (text : String)
  deriving DecidableEq, Repr, Inhabited

/-- The wording of a cause. -/
def FileFault.Cause.text : FileFault.Cause → String
  | .missing => "no such file or directory"
  | .isDirectory => "is a directory"
  | .notDirectory => "not a directory"
  | .other text => text

/-- A failed operation on a file: whether the file was open already, its path as it was given, and why it
failed. -/
structure FileFault where
  opened : Bool
  path : String
  cause : FileFault.Cause
  deriving DecidableEq, Repr, Inhabited

/-- The wording of a fault. -/
def FileFault.message (f : FileFault) : String :=
  (if f.opened then "read " else "open ") ++ f.path ++ ": " ++ f.cause.text

/-- Files that are read and written by their paths. -/
class FileSystem (Files : Type) where
  /-- The content of a file. -/
  read : Files → String → Except FileFault (List UInt8)
  /-- Whether a path leads to anything. -/
  has : Files → String → Bool
  /-- The files after one was written, which need not be there before. -/
  write : Files → String → List UInt8 → Except FileFault Files

end LetLang
