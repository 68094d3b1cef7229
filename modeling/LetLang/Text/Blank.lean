/-!
# Blank characters

The characters that are only room between others: the six blanks of ASCII, the two of Latin-1, and the
space and line separators of the rest.
-/

set_option autoImplicit false

namespace LetLang.Text

/-- The blank characters. -/
def blanks : List Char :=
  ['\t', '\n', '\x0b', '\x0c', '\r', ' ', '\u0085', '\u00a0', '\u1680', '\u2000', '\u2001', '\u2002',
    '\u2003', '\u2004', '\u2005', '\u2006', '\u2007', '\u2008', '\u2009', '\u200a', '\u2028', '\u2029',
    '\u202f', '\u205f', '\u3000']

/-- Whether a character is blank. -/
def isBlank (c : Char) : Bool := blanks.contains c

/-- Bytes without what stands at their front of the given codes, at most so many times. -/
def dropCodes (codes : List (List UInt8)) : Nat → List UInt8 → List UInt8
  | 0, bytes => bytes
  | times + 1, bytes =>
    match codes.find? (·.isPrefixOf bytes) with
    | some code => dropCodes codes times (bytes.drop code.length)
    | none => bytes

/-- A text of bytes without the blanks at either end. What is no character is not blank. -/
def trim (bytes : List UInt8) : List UInt8 :=
  let codes := blanks.map String.utf8EncodeChar
  let back := (dropCodes codes bytes.length bytes).reverse
  (dropCodes (codes.map List.reverse) back.length back).reverse

end LetLang.Text
