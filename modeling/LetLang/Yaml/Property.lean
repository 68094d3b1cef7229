import LetLang.Text.Digits
import LetLang.Text.Octets
import LetLang.Yaml.Problem

/-!
# Properties of nodes

What may stand in front of a node: a name for it to be referred to, and a tag. A tag is written as a
handle with a suffix, where the handle is short for the beginning of the tag, or between angle brackets as
it is. Octets of a tag that have no character of their own are written as a percent sign with two
hexadecimal digits.
-/

set_option autoImplicit false

namespace LetLang.Yaml

/-! ## Names -/

/-- Whether the name of an anchor may end here. -/
def endsName (r : List Char) : Bool :=
  endsWord r || r.head?.any fun c => "?:,]%@`".toList.contains c || c == '\x7d'

/-- The name after an ampersand or an asterisk. -/
def takeName (cur : Cursor) : Except Problem (String × Cursor) :=
  let name := (cur.rest.drop 1).takeWhile isNameChar
  let after := cur.skip (name.length + 1)
  if name.isEmpty || !endsName after.rest then
    .error (.inWord cur.line after "did not find expected alphabetic or numeric character")
  else .ok (String.ofList name, after)

/-! ## Tags -/

/-- Whether a character may stand in a tag as itself. -/
def isTagChar (c : Char) : Bool :=
  isNameChar c || ";/?:@&=+$,.!~*'()[]".toList.contains c

/-- The octet that a percent sign and two digits stand for. -/
def taggedOctet (cur : Cursor) : Except Problem Nat :=
  let octet? :=
    match cur.rest with
    | '%' :: a :: b :: _ => Text.natural? 16 [a, b]
    | _ => none
  match octet? with
  | some n => .ok n
  | none => .error (.inWord cur.line cur "did not find URI escaped octet")

/-- How many octets a character has that starts with this one; zero if none does. -/
def octetCount (n : Nat) : Nat :=
  if n < 0x80 then 1
  else if n / 32 = 6 then 2
  else if n / 16 = 14 then 3
  else if n / 8 = 30 then 4
  else 0

/-- So many octets that go on with a character. -/
def laterOctets : Nat → Cursor → Except Problem (List Nat)
  | 0, _ => .ok []
  | count + 1, cur => do
    let n ← taggedOctet cur
    if n / 64 != 2 then .error (.inWord cur.line cur "found an incorrect trailing UTF-8 octet")
    return n :: (← laterOctets count (cur.skip 3))

/-- The octets of the character that is written here with percent signs. -/
def taggedChar (cur : Cursor) : Except Problem (List Nat) := do
  let n ← taggedOctet cur
  if octetCount n = 0 then .error (.inWord cur.line cur "found an incorrect leading UTF-8 octet")
  return n :: (← laterOctets (octetCount n - 1) (cur.skip 3))

/-- The characters of a tag from a place on, after `acc`. -/
def takeTagText (acc : List Char) (cur : Cursor) : Except Problem (List Char × Cursor) :=
  match _hc : cur.rest with
  | [] => .ok (acc, cur)
  | c :: _ =>
    if c == '%' then
      match taggedChar cur with
      | .error p => .error p
      | .ok octets =>
        takeTagText (acc ++ Text.ofOctets (octets.map UInt8.ofNat))
          (cur.skip (3 * (octets.length - 1) + 3))
    else if isTagChar c then takeTagText (acc ++ [c]) (cur.skip 1)
    else .ok (acc, cur)
termination_by cur.rest.length
decreasing_by
  · exact Cursor.length_skip_lt (by omega) (by simp [_hc])
  · exact Cursor.length_skip_lt Nat.one_pos (by simp [_hc])

/-- The characters of a tag at a place, of which there is at least one. -/
def takeTagBody (cur : Cursor) : Except Problem (String × Cursor) := do
  let (body, after) ← takeTagText [] cur
  if after.index = cur.index then .error (.inWord cur.line cur "did not find expected tag URI")
  return (String.ofList body, after)

/-- The handle that starts with the exclamation mark here: a name between two of them, two of them, or the
mark alone. Without a second mark the name belongs to no handle, and `false` says so. -/
def takeHandle (cur : Cursor) : List Char × Bool × Cursor :=
  let name := (cur.rest.drop 1).takeWhile isNameChar
  let after := cur.skip (name.length + 1)
  if after.head? == some '!' then ('!' :: name ++ ['!'], true, after.skip 1)
  else ('!' :: name, false, after)

/-- The handle and the suffix of the tag here; the handle is empty if the suffix is all of the tag. -/
def takeTagParts (cur : Cursor) : Except Problem (String × String × Cursor) := do
  if (cur.rest.drop 1).head? == some '<' then
    let (body, after) ← takeTagBody (cur.skip 2)
    if after.head? != some '>' then
      .error (.inWord cur.line after "did not find the expected '>'")
    return ("", body, after.skip 1)
  else
    let (handle, closed, after) := takeHandle cur
    if closed then
      let (body, after) ← takeTagBody after
      return (String.ofList handle, body, after)
    else
      let (body, after) ← takeTagText handle.tail after
      if body.isEmpty then return ("", "!", after)
      return ("!", String.ofList body, after)

/-- The handle and the suffix of the tag here, which a blank or the end of the line must follow. -/
def takeTag (cur : Cursor) : Except Problem (String × String × Cursor) := do
  let (handle, suffix, after) ← takeTagParts cur
  if !endsWord after.rest then
    .error (.inWord cur.line after "did not find expected whitespace or line break")
  return (handle, suffix, after)

end LetLang.Yaml
