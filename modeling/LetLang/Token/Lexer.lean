import LetLang.Token

/-!
# From bytes to tokens

A text is a list of bytes, not of characters: the language is ASCII, and a byte that no rule knows is
a token of its own, of kind `illegal`. Reading goes by **maximal munch**: after blanks are skipped, the
longest lexeme at the front is split off (`munch`), and its bytes alone decide the token
(`Token.ofLexeme`). Splitting and classifying are kept apart so that each can be described alone: the
first loses no byte, the second never looks at what follows.

A zero byte ends the text for good: `next` stays in front of it and answers the end mark for ever.

* `next?` reads one token, if there is one; what is left is shorter than the text (`next?_length_lt`).
* `tokens` is the whole sequence up to the end of the text.
* `next` and `stream` are the same reading as an endless stream, with the end mark repeated.
-/

set_option autoImplicit false

namespace LetLang

/-- A source text, as the bytes it consists of. -/
abbrev Source := List UInt8

namespace Source

/-- The bytes of a text in UTF-8. -/
def ofString (s : String) : Source := s.toUTF8.data.toList

/-- Space, tab, line feed and carriage return separate tokens and are otherwise ignored. -/
def isBlank (b : UInt8) : Bool := b == 32 || b == 9 || b == 10 || b == 13

/-- Letters of words: `a`–`z`, `A`–`Z` and the underscore. Digits do not occur in words. -/
def isLetter (b : UInt8) : Bool := (97 ≤ b && b ≤ 122) || (65 ≤ b && b ≤ 90) || b == 95

/-- Decimal digits. -/
def isDigit (b : UInt8) : Bool := 48 ≤ b && b ≤ 57

/-- The bytes that join with a following `=` into one operator: `=` and `!`. -/
def joinsEquals (b : UInt8) : Bool := b == 61 || b == 33

/-- Bytes as text, each byte as the character with its number. For the ASCII bytes of words, numbers
and symbols this is the text they spell; an illegal byte above 127 becomes one character too. -/
def text (bytes : List UInt8) : String :=
  String.ofList (bytes.map fun b => Char.ofNat b.toNat)

/-- Splits the longest lexeme off a text that starts with the byte `b` followed by `rest`: a run of
letters, a run of digits, `==` or `!=`, or else the single byte. -/
def munch (b : UInt8) (rest : List UInt8) : List UInt8 × List UInt8 :=
  if isLetter b then (b :: rest.takeWhile isLetter, rest.dropWhile isLetter)
  else if isDigit b then (b :: rest.takeWhile isDigit, rest.dropWhile isDigit)
  else match rest with
    | [] => ([b], [])
    | c :: rest' => if joinsEquals b && c == 61 then ([b, c], rest') else ([b], c :: rest')

end Source

/-- The kind a lexeme stands for, decided by its first byte and its text. -/
def Token.Kind.ofLexeme : List UInt8 → Token.Kind
  | [] => .illegal
  | b :: bytes =>
    if Source.isLetter b then .ofWord (Source.text (b :: bytes))
    else if Source.isDigit b then .int
    else .ofSymbol (Source.text (b :: bytes))

/-- The token a lexeme stands for. -/
def Token.ofLexeme (lexeme : List UInt8) : Token :=
  ⟨.ofLexeme lexeme, Source.text lexeme⟩

namespace Source

/-- Reads one token after skipping blanks. There is none at the end of the bytes and none from a
zero byte on. -/
def next? (src : Source) : Option (Token × Source) :=
  match src.dropWhile isBlank with
  | [] => none
  | b :: rest =>
    if b == 0 then none
    else some (.ofLexeme (munch b rest).1, (munch b rest).2)

theorem length_dropWhile_le {α : Type} (p : α → Bool) (xs : List α) :
    (xs.dropWhile p).length ≤ xs.length :=
  (List.dropWhile_suffix p).length_le

/-- The lexeme is not empty, so what follows it is no longer than what followed its first byte. -/
theorem munch_length_le (b : UInt8) (rest : List UInt8) :
    (munch b rest).2.length ≤ rest.length := by
  unfold munch
  split
  · exact length_dropWhile_le _ _
  · split
    · exact length_dropWhile_le _ _
    · split
      · exact Nat.le_refl _
      · split
        · exact Nat.le_succ _
        · exact Nat.le_refl _

/-- Reading a token uses up at least one byte. -/
theorem next?_length_lt {src rest : Source} {t : Token} (h : next? src = some (t, rest)) :
    rest.length < src.length := by
  unfold next? at h
  split at h
  · cases h
  · next b tail hd =>
    split at h
    · cases h
    · obtain ⟨-, rfl⟩ := Prod.mk.inj (Option.some.inj h)
      have h1 := munch_length_le b tail
      have h2 := length_dropWhile_le isBlank src
      rw [hd, List.length_cons] at h2
      omega

/-- The tokens of a text, up to its end. -/
def tokens (src : Source) : List Token :=
  match _h : next? src with
  | none => []
  | some (t, rest) => t :: tokens rest
termination_by src.length
decreasing_by exact next?_length_lt _h

/-- Reads one token of the endless stream: past the last token stands the end mark, and reading it
moves no further than over blanks. -/
def next (src : Source) : Token × Source :=
  (next? src).getD (.endOfInput, src.dropWhile isBlank)

/-- The first `n` tokens of the endless stream. -/
def stream : Nat → Source → List Token
  | 0, _ => []
  | n + 1, src => (next src).1 :: stream n (next src).2

end Source

end LetLang
