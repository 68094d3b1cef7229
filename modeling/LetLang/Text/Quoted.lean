import LetLang.Text.Printable

/-!
# Quoted text

Text between double quotation marks, on one line and free of invisible characters: what is printable
stands for itself, a quotation mark or backslash has a backslash before it, and every other character
is written as an escape. Of the possible escapes the shortest is taken: a letter for the seven control
characters that have one, two digits for the other control characters of ASCII, four or eight for the
rest.
-/

set_option autoImplicit false

namespace LetLang.Text

/-- The digit of value `n` below sixteen, in lower case. -/
def hexDigit (n : Nat) : Char :=
  Char.ofNat (if n < 10 then 48 + n else 87 + n)

/-- The last `width` hexadecimal digits of `n`. -/
def hexDigits : Nat → Nat → List Char
  | 0, _ => []
  | width + 1, n => hexDigits width (n / 16) ++ [hexDigit (n % 16)]

/-- How one character is written between quotation marks. -/
def quotedChar (c : Char) : List Char :=
  if c = '"' then ['\\', '"']
  else if c = '\\' then ['\\', '\\']
  else if isPrintable c then [c]
  else match c.toNat with
    | 7 => ['\\', 'a']
    | 8 => ['\\', 'b']
    | 9 => ['\\', 't']
    | 10 => ['\\', 'n']
    | 11 => ['\\', 'v']
    | 12 => ['\\', 'f']
    | 13 => ['\\', 'r']
    | n =>
      if n < 0x80 then ['\\', 'x'] ++ hexDigits 2 n
      else if n < 0x10000 then ['\\', 'u'] ++ hexDigits 4 n
      else ['\\', 'U'] ++ hexDigits 8 n

/-- Text between quotation marks. -/
def quoted (s : String) : String :=
  String.ofList (['"'] ++ s.toList.flatMap quotedChar ++ ['"'])

end LetLang.Text
