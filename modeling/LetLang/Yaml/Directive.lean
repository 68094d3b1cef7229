import LetLang.Yaml.Property
import LetLang.Yaml.Token

/-!
# Directives

Lines in front of a document that start with a percent sign. One gives the version of the language, the
other says what a tag's handle is short for; there are no more.
-/

set_option autoImplicit false

namespace LetLang.Yaml

/-- The number of a version, of at most two digits. -/
def takeVersionNumber (cur : Cursor) : Except Problem (Nat × Cursor) :=
  let digits := cur.rest.takeWhile Char.isDigit
  if 2 < digits.length then .error (.inWord cur.line cur "found extremely long version number")
  else
    match Text.natural? 10 digits with
    | some n => .ok (n, cur.skip digits.length)
    | none => .error (.inWord cur.line cur "did not find expected version number")

/-- A version: two numbers with a point between them. -/
def takeVersion (cur : Cursor) : Except Problem (Token × Cursor) := do
  let (major, after) ← takeVersionNumber cur.skipBlanks
  if after.head? != some '.' then
    .error (.inWord cur.line after "did not find expected digit or '.' character")
  let (minor, after) ← takeVersionNumber (after.skip 1)
  return (.version major minor, after)

/-- A handle and what it is short for. -/
def takeExpansion (cur : Cursor) : Except Problem (Token × Cursor) := do
  let problem := Problem.inWord cur.line
  let start := cur.skipBlanks
  let (handle, closed, after) := takeHandle start
  if start.head? != some '!' || (!closed && handle.length != 1) then
    .error (problem after "did not find expected '!'")
  if !after.head?.any isBlank then .error (problem after "did not find expected whitespace")
  let (expansion, after) ← takeTagBody after.skipBlanks
  if !endsWord after.rest then .error (problem after "did not find expected whitespace or line break")
  return (.handle (String.ofList handle) expansion, after)

/-- The directive that starts with the percent sign here, and the place after its line. -/
def takeDirective (cur : Cursor) : Except Problem (Token × Cursor) := do
  let problem := Problem.inWord cur.line
  let name := (cur.rest.drop 1).takeWhile isNameChar
  let after := cur.skip (name.length + 1)
  if name.isEmpty then .error (problem after "could not find expected directive name")
  if !endsWord after.rest then .error (problem after "found unexpected non-alphabetical character")
  let (token, after) ←
    if name == "YAML".toList then takeVersion after
    else if name == "TAG".toList then takeExpansion after
    else .error (problem after "found unknown directive name")
  let stop := after.skipBlanks
  let stop := if stop.head? == some '#' then stop.skipLine else stop
  if !endsLine stop.rest then .error (problem stop "did not find expected comment or line break")
  return (token, stop.skipBreak)

end LetLang.Yaml
