import LetLang.Text.Digits

/-!
# Numbers as scalars write them

Integers may be written in the bases two, eight, ten and sixteen. The other numbers are decimals with a
fraction or an exponent, and they are what the nearest floating-point number with 53 binary digits is: a
setting that wants an integer takes that number cut off at its point.
-/

set_option autoImplicit false

namespace LetLang.Yaml

/-- A sign, if there is one, taken off: whether it was a minus, and what follows. -/
def takeSign : List Char → Bool × List Char
  | '-' :: r => (true, r)
  | '+' :: r => (false, r)
  | r => (false, r)

/-- A number without its sign, in the base its first characters name. -/
def magnitude? : List Char → Option Nat
  | '0' :: c :: r =>
    if c == 'x' || c == 'X' then Text.natural? 16 r
    else if c == 'b' || c == 'B' then Text.natural? 2 r
    else if c == 'o' || c == 'O' then Text.natural? 8 r
    else Text.natural? 8 (c :: r)
  | r => Text.natural? 10 r

/-- A number with its sign, if it has at most 63 binary digits. -/
def signed? (negative : Bool) (n : Nat) : Option Int :=
  if negative then (if n ≤ 1 <<< 63 then some (-n) else none)
  else if n < 1 <<< 63 then some n
  else none

/-- An integer with its sign after what names the base. -/
def lateSign? : List Char → Option Int
  | '0' :: c :: r =>
    let (negative, digits) := takeSign r
    if c == 'b' then (Text.natural? 2 digits).bind (signed? negative)
    else if c == 'o' then (Text.natural? 8 digits).bind (signed? negative)
    else none
  | _ => none

/-- The integer a text writes. With a sign it has 63 binary digits, without one it may have 64. -/
def integer? (cs : List Char) : Option Int :=
  let (negative, r) := takeSign cs
  match magnitude? r with
  | none => lateSign? cs
  | some n =>
    if !negative && n < 1 <<< 64 && cs.head? != some '+' then some n else signed? negative n

/-- A decimal: `digits` times the power of ten `exponent`. -/
structure Decimal where
  negative : Bool
  digits : Nat
  exponent : Int
  deriving DecidableEq, Repr, Inhabited

namespace Decimal

/-- The exponent part of a decimal; nothing at all stands for zero. -/
def exponent? : List Char → Option Int
  | [] => some 0
  | c :: r =>
    if c == 'e' || c == 'E' then
      let (negative, r) := takeSign r
      (Text.natural? 10 r).map fun n => if negative then -(n : Int) else n
    else none

/-- The decimal a text writes: digits with at most one point among them, and perhaps an exponent. -/
def read? (cs : List Char) : Option Decimal :=
  let (negative, r) := takeSign cs
  let whole := r.takeWhile Char.isDigit
  let r := r.dropWhile Char.isDigit
  let (fraction, r) :=
    match r with
    | '.' :: r => (r.takeWhile Char.isDigit, r.dropWhile Char.isDigit)
    | _ => ([], r)
  match Text.natural? 10 (whole ++ fraction), exponent? r with
  | some digits, some e => some ⟨negative, digits, e - fraction.length⟩
  | _, _ => none

/-- A text without the underscores between its digits; nothing if one stands elsewhere. `afterDigit` says
whether a digit stands before the text. -/
def joinDigits? (afterDigit : Bool) : List Char → Option (List Char)
  | [] => some []
  | c :: r =>
    if c == '_' then
      if afterDigit && r.head?.any Char.isDigit then joinDigits? false r else none
    else (joinDigits? c.isDigit r).map (c :: ·)

/-- The quotient of two numbers, rounded to the nearest integer; a half goes to the even neighbour. -/
def nearestQuotient (num den : Nat) : Nat :=
  let q := num / den
  let twice := 2 * (num % den)
  if twice < den || (twice == den && q % 2 == 0) then q else q + 1

/-- The integer logarithm of a quotient to the base two. -/
def logQuotient (num den : Nat) : Int :=
  let b := (Nat.log2 num : Int) - Nat.log2 den
  let below := if 0 ≤ b then num < den <<< b.toNat else num <<< (-b).toNat < den
  if below then b - 1 else b

/-- The floating-point number `m * 2 ^ e` nearest to a quotient, as the pair of `m` and `e`. -/
def nearestFloat (num den : Nat) : Nat × Int :=
  let e := max (logQuotient num den - 52) (-1074)
  if 0 ≤ e then (nearestQuotient num (den <<< e.toNat), e)
  else (nearestQuotient (num <<< (-e).toNat) den, e)

/-- The size of the floating-point number nearest to a decimal, cut off at its point; nothing if there is
none that large. The decimal's magnitude is looked at first, so no power taken is larger than the text
that writes the decimal calls for. -/
def whole? (d : Decimal) : Option Nat :=
  let size := (Nat.toDigits 10 d.digits).length + d.exponent
  if d.digits == 0 || size < -330 then some 0
  else if 310 < size then none
  else
    let (m, e) :=
      if 0 ≤ d.exponent then nearestFloat (d.digits * Nat.pow 10 d.exponent.toNat) 1
      else nearestFloat d.digits (Nat.pow 10 (-d.exponent).toNat)
    let n := if 0 ≤ e then m <<< e.toNat else m >>> (-e).toNat
    if n < 1 <<< 1024 then some n else none

end Decimal

/-- The least integer with 63 binary digits and a sign. It is also what a floating-point number beyond
the range of those integers is cut to. -/
def leastInt : Int := Int64.minValue.toInt

/-- The integer that a floating-point number is cut to, given its size cut off at the point; nothing for
numbers above the range. The first number past the range still counts, but does not fit. -/
def cut (negative : Bool) (whole : Nat) : Option Int :=
  if negative then (if whole ≤ 1 <<< 63 then some (-whole) else some leastInt)
  else if whole < 1 <<< 63 then some whole
  else if whole = 1 <<< 63 then some leastInt
  else none

end LetLang.Yaml
