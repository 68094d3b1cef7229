/-!
# Words of a document

What a text is made of before it is a document: scalars, the signs between them, and the properties and
directives that stand in front. Where a collection is written by indentation alone, its beginning and end
are words too, though no character writes them.
-/

set_option autoImplicit false

namespace LetLang.Yaml

/-- A word of a document. -/
inductive Token where
  | streamEnd
  | version (major minor : Nat)
  | handle (handle expansion : String)
  | documentStart
  | documentEnd
  | blockSeq
  | blockMap
  | blockEnd
  | flowSeq
  | flowSeqEnd
  | flowMap
  | flowMapEnd
  | dash
  | comma
  | key
  | value
  | alias (name : String)
  | anchor (name : String)
  | tag (handle suffix : String)
  | scalar (plain : Bool) (text : String)
  deriving DecidableEq, Repr, Inhabited

/-- Whether a document cannot go on with this word. -/
def Token.outsideDocument : Token → Bool
  | .streamEnd | .version _ _ | .handle _ _ | .documentStart | .documentEnd => true
  | _ => false

/-- A word and the line it starts on, counted from zero. -/
structure Word where
  token : Token
  line : Nat
  deriving DecidableEq, Repr, Inhabited

end LetLang.Yaml
