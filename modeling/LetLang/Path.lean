/-!
# Paths

A path is text with its parts between slashes. `clean` gives the shortest path that names the same place
by its text alone, and `join` puts one path below another.
-/

set_option autoImplicit false

namespace LetLang.Path

/-- The parts of a path, empty ones included: `first` is what was read of the first part, reversed. -/
def partsFrom (first : List Char) : List Char → List String
  | [] => [String.ofList first.reverse]
  | c :: cs =>
    if c == '/' then String.ofList first.reverse :: partsFrom [] cs else partsFrom (c :: first) cs

/-- The parts of a path. -/
def parts (path : String) : List String := partsFrom [] path.toList

/-- Whether a path starts at the root. -/
def isRooted (path : String) : Bool := path.toList.head? == some '/'

/-- Adds a part to a clean path, which is given by its parts, last one first. Nothing is above the root. -/
def addPart (rooted : Bool) (above : List String) (part : String) : List String :=
  if part == "" || part == "." then above
  else if part == ".." then
    match above with
    | [] => if rooted then [] else [".."]
    | p :: rest => if p == ".." then ".." :: above else rest
  else part :: above

/-- The shortest path to the same place. -/
def clean (path : String) : String :=
  let rooted := isRooted path
  let body := "/".intercalate ((parts path).foldl (addPart rooted) []).reverse
  if rooted then "/" ++ body
  else if body.isEmpty then "." else body

/-- A path below another one, cleaned. -/
def join (above below : String) : String := clean (above ++ "/" ++ below)

end LetLang.Path
