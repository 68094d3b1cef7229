import LetLang.Text.Digits

/-!
# Dates and times

A date is a year of four digits, a month and a day with dashes between them. A time may follow: after the
letter T, and then with its distance from universal time, or after spaces, and then without one. Only
whether a text is a date matters here, not which one.
-/

set_option autoImplicit false

namespace LetLang.Yaml

namespace Timestamp

/-- A number of one or two digits. -/
def short? : List Char → Option (Nat × List Char)
  | a :: b :: r =>
    if !a.isDigit then none
    else if b.isDigit then some (10 * (a.toNat - 48) + (b.toNat - 48), r)
    else some (a.toNat - 48, b :: r)
  | [a] => if a.isDigit then some (a.toNat - 48, []) else none
  | [] => none

/-- What follows a character. -/
def after? (c : Char) : List Char → Option (List Char)
  | d :: r => if d == c then some r else none
  | [] => none

/-- Whether a year has a 29th of February. -/
def isLeap (year : Nat) : Bool := year % 4 == 0 && (year % 100 != 0 || year % 400 == 0)

/-- How many days a month has. -/
def daysIn (year month : Nat) : Nat :=
  if month = 2 then (if isLeap year then 29 else 28)
  else if month = 4 || month = 6 || month = 9 || month = 11 then 30
  else 31

/-- What follows a date. -/
def date? (cs : List Char) : Option (List Char) := do
  let digits := cs.takeWhile Char.isDigit
  if digits.length != 4 then none
  let year ← Text.natural? 10 digits
  let (month, r) ← short? (← after? '-' (cs.drop 4))
  if month = 0 || 12 < month then none
  let (day, r) ← short? (← after? '-' r)
  if day = 0 || daysIn year month < day then none
  return r

/-- What follows a fraction of a second, if there is one. -/
def skipFraction : List Char → List Char
  | c :: r =>
    if (c == '.' || c == ',') && r.head?.any Char.isDigit then r.dropWhile Char.isDigit else c :: r
  | [] => []

/-- What follows a time of the day. -/
def time? (cs : List Char) : Option (List Char) := do
  let (hour, r) ← short? cs
  if 24 ≤ hour then none
  let (minute, r) ← short? (← after? ':' r)
  if 60 ≤ minute then none
  let (second, r) ← short? (← after? ':' r)
  if 60 ≤ second then none
  return skipFraction r

/-- Whether the rest is a distance from universal time: the letter Z, or a sign with hours and minutes of
two digits each. -/
def isZone : List Char → Bool
  | ['Z'] => true
  | [sign, a, b, ':', c, d] =>
    (sign == '+' || sign == '-') &&
      match Text.natural? 10 [a, b], Text.natural? 10 [c, d] with
      | some hours, some minutes => hours ≤ 24 && minutes ≤ 60
      | _, _ => false
  | _ => false

end Timestamp

/-- Whether a text is a date, with a time or without one. -/
def isTimestamp (cs : List Char) : Bool :=
  match Timestamp.date? cs with
  | none => false
  | some [] => true
  | some (c :: r) =>
    if c == 'T' || c == 't' then (Timestamp.time? r).any Timestamp.isZone
    else c == ' ' && (Timestamp.time? (r.dropWhile (· == ' '))).any List.isEmpty

end LetLang.Yaml
