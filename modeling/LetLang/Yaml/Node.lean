import LetLang.Yaml.Tag

/-!
# Documents

A document is a node: a scalar, a sequence or a mapping. Every node has a tag, given or found, and keeps
the line it starts on, counted from one, because complaints about a document name it.

A node may be referred to by name further on. A reference holds the node it stands for, unless that is a
collection around the reference itself; then only what is known of it from its start.
-/

set_option autoImplicit false

namespace LetLang.Yaml

/-- What is known of a collection at its start. -/
structure Opening where
  isMap : Bool
  line : Nat
  tag : Tag
  deriving DecidableEq, Repr, Inhabited

/-- A node of a document. -/
inductive Node where
  | scalar (line : Nat) (tag : Tag) (text : String)
  | seq (line : Nat) (tag : Tag) (items : List Node)
  | map (line : Nat) (tag : Tag) (entries : List (Node × Node))
  | alias (line : Nat) (name : String) (target : Node)
  | enclosing (line : Nat) (name : String) (target : Opening)
  deriving Inhabited

namespace Node

/-- The line a node starts on. -/
def line : Node → Nat
  | .scalar l _ _ | .seq l _ _ | .map l _ _ | .alias l _ _ | .enclosing l _ _ => l

/-- The text of a node: what a scalar says, or the name in a reference. -/
def text : Node → String
  | .scalar _ _ s | .alias _ s _ | .enclosing _ s _ => s
  | .seq _ _ _ | .map _ _ _ => ""

/-- Whether a node refers to another. -/
def isReference : Node → Bool
  | .alias _ _ _ | .enclosing _ _ _ => true
  | .scalar _ _ _ | .seq _ _ _ | .map _ _ _ => false

/-- Whether two nodes have the same text and are of the same sort, which makes them the same key. -/
def sameKey : Node → Node → Bool
  | .scalar _ _ a, .scalar _ _ b => a == b
  | .seq _ _ _, .seq _ _ _ => true
  | .map _ _ _, .map _ _ _ => true
  | a, b => a.isReference && b.isReference && a.text == b.text

/-- Whether a node is the key under which a mapping takes over the entries of others. -/
def isMergeKey : Node → Bool
  | .scalar _ .merge text => text == "<<"
  | _ => false

end Node

end LetLang.Yaml
