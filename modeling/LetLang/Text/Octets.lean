/-!
# Characters as octets

Text that arrives as octets: each octet that belongs to no character is read as one replacement character,
so that reading never fails. Octets may themselves be written with the sixty-four letters of base 64.
-/

set_option autoImplicit false

namespace LetLang.Text

/-- The character at the front of octets, and how many octets it takes. -/
def frontChar (bytes : List UInt8) : Char × Nat :=
  let hit := [1, 2, 3, 4].findSome? fun n =>
    (String.fromUTF8? ⟨(bytes.take n).toArray⟩).bind fun s => s.toList.head?.map (·, n)
  hit.getD ('\ufffd', 1)

/-- At most so many characters of octets. -/
def charsFrom : Nat → List UInt8 → List Char
  | 0, _ => []
  | n + 1, bytes =>
    if bytes.isEmpty then []
    else
      let (c, width) := frontChar bytes
      c :: charsFrom n (bytes.drop width)

/-- The characters of octets. No character takes less than one octet. -/
def ofOctets (bytes : List UInt8) : List Char := charsFrom bytes.length bytes

/-- The value of a letter of base 64. -/
def sextet? (c : Char) : Option Nat :=
  if 'A' ≤ c && c ≤ 'Z' then some (c.toNat - 65)
  else if 'a' ≤ c && c ≤ 'z' then some (c.toNat - 71)
  else if '0' ≤ c && c ≤ '9' then some (c.toNat + 4)
  else if c == '+' then some 62
  else if c == '/' then some 63
  else none

/-- The first `count` octets of a number of three. -/
def octetsOf (count n : Nat) : List UInt8 :=
  ([n / 65536, n / 256, n].take count).map UInt8.ofNat

/-- Four letters as the number they write together; an absent letter counts as zero. -/
def quantum? (letters : List Char) : Option Nat :=
  (letters.mapM sextet?).map fun ds =>
    ds.foldl (fun n d => 64 * n + d) 0 <<< (6 * (4 - letters.length))

/-- The octets that letters of base 64 write, four letters for three octets; the last four may end with one
or two signs that stand for no octet. -/
def base64? : List Char → Option (List UInt8)
  | [] => some []
  | [a, b, '=', '='] => (quantum? [a, b]).map (octetsOf 1)
  | [a, b, c, '='] => (quantum? [a, b, c]).map (octetsOf 2)
  | a :: b :: c :: d :: rest =>
    match quantum? [a, b, c, d], base64? rest with
    | some n, some bytes => some (octetsOf 3 n ++ bytes)
    | _, _ => none
  | _ => none

end LetLang.Text
