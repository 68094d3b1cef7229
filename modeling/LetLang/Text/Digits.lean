/-!
# Digits

Numbers written in a base of at most sixteen, letters of either case standing for the digits from ten on.
-/

set_option autoImplicit false

namespace LetLang.Text

/-- The value of a digit. -/
def digit? (c : Char) : Option Nat :=
  if '0' ≤ c && c ≤ '9' then some (c.toNat - 48)
  else if 'a' ≤ c && c ≤ 'f' then some (c.toNat - 87)
  else if 'A' ≤ c && c ≤ 'F' then some (c.toNat - 55)
  else none

/-- The number that digits denote, after the number `n`; nothing if one of them is no digit of the base. -/
def naturalFrom? (base n : Nat) : List Char → Option Nat
  | [] => some n
  | c :: cs =>
    match digit? c with
    | some d => if d < base then naturalFrom? base (base * n + d) cs else none
    | none => none

/-- The number that digits denote, of which there is at least one. -/
def natural? (base : Nat) (digits : List Char) : Option Nat :=
  if digits.isEmpty then none else naturalFrom? base 0 digits

end LetLang.Text
