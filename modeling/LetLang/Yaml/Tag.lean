/-!
# Tags

What sort of thing a node is. Some tags have names of their own and a meaning to every reader; a document
may bring others, which mean nothing here. The names are short for a common beginning with a few letters
after it, and the beginning is written as two exclamation marks.
-/

set_option autoImplicit false

namespace LetLang.Yaml

/-- What sort of thing a node is. -/
inductive Tag where
  | null
  | bool
  | int
  | float
  | str
  | timestamp
  | binary
  | merge
  | seq
  | map
  | other (name : String)
  deriving DecidableEq, Repr, Inhabited

namespace Tag

/-- The short name of a tag. -/
def name : Tag → String
  | .null => "!!null"
  | .bool => "!!bool"
  | .int => "!!int"
  | .float => "!!float"
  | .str => "!!str"
  | .timestamp => "!!timestamp"
  | .binary => "!!binary"
  | .merge => "!!merge"
  | .seq => "!!seq"
  | .map => "!!map"
  | .other name => name

/-- The tags with names of their own. -/
def known : List Tag :=
  [.null, .bool, .int, .float, .str, .timestamp, .binary, .merge, .seq, .map]

/-- What the names of the known tags are short for. -/
def commonFront : String := "tag:yaml.org,2002:"

/-- The short form of a tag written in full. -/
def shorten (full : String) : String :=
  if commonFront.toList.isPrefixOf full.toList then
    "!!" ++ String.ofList (full.toList.drop commonFront.length)
  else full

/-- The tag written in full or in short. -/
def ofText (text : String) : Tag :=
  (known.find? (·.name == shorten text)).getD (.other (shorten text))

/-- Whether the tag is one of those that the text of a scalar decides about. -/
def isResolved : Tag → Bool
  | .null | .bool | .int | .float | .timestamp => true
  | _ => false

end Tag

end LetLang.Yaml
