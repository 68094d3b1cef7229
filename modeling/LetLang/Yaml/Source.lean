import LetLang.Yaml.Cursor

/-!
# Texts as they arrive

A text is taken in pieces of a fixed number of bytes, each cut short so that it ends with a whole
character. A piece with a character that no document may contain cannot be read, nor can anything after
it; but a reader that stops before such a piece never learns of it.

A byte order mark at the front is not part of the text.
-/

set_option autoImplicit false

namespace LetLang.Yaml

/-- The byte order mark, which may stand at the front of a text. -/
def byteOrderMark : Char := '\ufeff'

/-- Whether a document may contain a character. -/
def isAllowed (c : Char) : Bool :=
  let n := c.toNat
  n == 0x09 || n == 0x0a || n == 0x0d || (0x20 ≤ n && n ≤ 0x7e) || n == 0x85
    || (0xa0 ≤ n && n ≤ 0xd7ff) || (0xe000 ≤ n && n ≤ 0xfffd) || 0x10000 ≤ n

/-- The number of bytes in a piece. -/
def pieceSize : Nat := 512

/-- How many characters fit into so many bytes. -/
def fitting : Nat → List Char → Nat
  | _, [] => 0
  | room, c :: cs => if c.utf8Size ≤ room then fitting (room - c.utf8Size) cs + 1 else 0

/-- How many characters the first piece of a text has. -/
def pieceLength (cs : List Char) : Nat := max 1 (fitting pieceSize cs)

/-- The characters of the pieces before the first one that cannot be read, and whether there is such a
piece. -/
def readable (cs : List Char) : List Char × Bool :=
  if _h : cs = [] then ([], false)
  else
    let piece := cs.take (pieceLength cs)
    if piece.all isAllowed then
      let (more, torn) := readable (cs.drop (pieceLength cs))
      (piece ++ more, torn)
    else ([], true)
termination_by cs.length
decreasing_by
  have := List.length_pos_iff.mpr _h
  simp only [List.length_drop, pieceLength]
  omega

/-- A text as a reader sees it: what can be read of it, whether more follows, and how many characters of it
arrive together with a second byte order mark at its front, if it has one. -/
structure Source where
  chars : List Char
  torn : Bool
  marked : Nat
  deriving Repr, Inhabited

/-- A text without the byte order mark at its front. -/
def Source.ofText (text : String) : Source :=
  let (chars, torn) := readable text.toList
  let front := if chars.head? == some byteOrderMark then 1 else 0
  let marked :=
    if (chars.drop front).head? == some byteOrderMark then pieceLength text.toList - front else 0
  ⟨chars.drop front, torn, marked⟩

end LetLang.Yaml
