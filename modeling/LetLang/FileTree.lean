import LetLang.FileSystem
import LetLang.Path

/-!
# File trees

Files and directories in memory. Names are looked up the way a system does it: part by part, where every
part but the last must be a directory that is there. A path leads from the current directory, or from the
root if it starts with a slash; nothing is above the root.
-/

set_option autoImplicit false

namespace LetLang

/-- What a path leads to. -/
inductive FileTree.Entry where
  | directory
  | file (content : List UInt8)
  deriving DecidableEq, Repr, Inhabited

/-- Files and directories by the names that lead to them from the root, which has no names itself. -/
structure FileTree where
  entries : List (List String × FileTree.Entry) := []
  /-- The names that lead to the current directory. It is there, and so are those on the way to it. -/
  current : List String := ["work"]
  deriving Repr, Inhabited

namespace FileTree

/-- The entry that names lead to. -/
def entry? (t : FileTree) (names : List String) : Option Entry :=
  if names.isPrefixOf t.current then some .directory else t.entries.lookup names

/-- The tree with an entry put in place of whatever was there. -/
def put (t : FileTree) (names : List String) (e : Entry) : FileTree :=
  { t with entries := (names, e) :: t.entries.filter (·.1 != names) }

/-- Goes from a directory along the parts of a path. The last name need not lead to anything. -/
def walk (t : FileTree) : List String → List String → Except FileFault.Cause (List String)
  | here, [] => .ok here
  | here, p :: ps =>
    match t.entry? here with
    | none => .error .missing
    | some (.file _) => .error .notDirectory
    | some .directory =>
      if p == "" || p == "." then t.walk here ps
      else if p == ".." then t.walk here.dropLast ps
      else t.walk (here ++ [p]) ps

/-- The directory that a path leads from. -/
def start (t : FileTree) (path : String) : List String := if Path.isRooted path then [] else t.current

/-- What a path leads to. -/
def find (t : FileTree) (path : String) : Except FileFault.Cause Entry :=
  if path.isEmpty then .error .missing
  else do
    let names ← t.walk (t.start path) (Path.parts path)
    match t.entry? names with
    | some e => .ok e
    | none => .error .missing

/-- Whether a path leads to anything. -/
def has (t : FileTree) (path : String) : Bool := (t.find path).toOption.isSome

/-- The content of a file. A directory can be opened, but not read. -/
def read (t : FileTree) (path : String) : Except FileFault (List UInt8) :=
  match t.find path with
  | .ok (.file content) => .ok content
  | .ok .directory => .error ⟨true, path, .isDirectory⟩
  | .error cause => .error ⟨false, path, cause⟩

/-- Where a file with a path would be put: the names that lead to it. Its directory must be there. -/
def place (t : FileTree) (path : String) : Except FileFault.Cause (List String) :=
  if path.isEmpty then .error .missing
  else do
    let parts := Path.parts path
    let names ← t.walk (t.start path) parts.dropLast
    match t.entry? names with
    | none => .error .missing
    | some (.file _) => .error .notDirectory
    | some .directory =>
      let last := parts.getLastD ""
      if last == "" || last == "." || last == ".." then .error .isDirectory
      else if t.entry? (names ++ [last]) == some .directory then .error .isDirectory
      else .ok (names ++ [last])

/-- Writes a file, which need not be there before. -/
def write (t : FileTree) (path : String) (content : List UInt8) : Except FileFault FileTree :=
  match t.place path with
  | .ok names => .ok (t.put names (.file content))
  | .error cause => .error ⟨false, path, cause⟩

/-- The tree with every directory on the way along `names`, starting below `above`. -/
def addDirectories (t : FileTree) (above : List String) : List String → FileTree
  | [] => t
  | n :: ns =>
    let here := above ++ [n]
    let t := if (t.entry? here).isSome then t else t.put here .directory
    t.addDirectories here ns

/-- The tree with a file in it and with the directories it needs. A path that ends in a slash is that of a
directory. -/
def add (t : FileTree) (path : String) (content : List UInt8) : FileTree :=
  let names := t.start path ++ (Path.parts path).filter fun p => p != "" && p != "."
  if (Path.parts path).getLastD "" == "" then t.addDirectories [] names
  else (t.addDirectories [] names.dropLast).put names (.file content)

/-- The tree of some files. -/
def ofList (files : List (String × List UInt8)) : FileTree :=
  files.foldl (fun t (path, content) => t.add path content) {}

instance : FileSystem FileTree := ⟨read, has, write⟩

end FileTree

end LetLang
