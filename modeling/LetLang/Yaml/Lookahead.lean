import LetLang.Yaml.Directive
import LetLang.Yaml.Scalar
import LetLang.Yaml.Source
import LetLang.Yaml.Token

/-!
# Reading ahead

Words are read a little ahead of the one that is needed next. One reason is that a key looks like any
other node until the colon after it: what may turn out to be a key is remembered as a `Candidate`, and the
colon then puts the word for a key, and perhaps the one that begins a mapping, in front of it. So the next
word is known only once no candidate starts with it any more. The other reason is a rule of this reader:
there are always `window` words at hand. Both show in what is reported of a text with several problems,
since the first one that is met is.

Where a collection is written by indentation, `indents` holds the columns of those that are open, each
one greater by one, the innermost first; text further to the left closes them.
-/

set_option autoImplicit false

namespace LetLang.Yaml

/-- The place of something that may turn out to be a key. A required one must: it starts where the keys of
a mapping stand. `number` is that of its first word among all words. -/
structure Candidate where
  required : Bool
  number : Nat
  index : Nat
  line : Nat
  column : Nat
  deriving DecidableEq, Repr, Inhabited

namespace Candidate

/-- How many characters a key has at most. -/
def reach : Nat := 1024

/-- Whether a colon at this place could still make a key of the candidate. -/
def isFresh (c : Candidate) (cur : Cursor) : Bool :=
  !(c.line < cur.line || c.index + reach < cur.index)

/-- The problem of a required key that has no colon. -/
def problem (c : Candidate) (cur : Cursor) : Problem :=
  .inWord c.line cur "could not find expected ':'"

end Candidate

/-- How far a text is read. Outside flow collections there is one candidate at most, and one more for each
flow collection that is open; `outer` has those of the enclosing levels, the innermost first. `lapsed` has
the numbers of candidates outside flow collections that were looked at when they were no longer fresh.
`allowed` says whether a key could start here, and `torn` and `marked` are what is known of the source.
`queue` holds the words read ahead, and `taken` counts those before them. -/
structure Scan where
  here : Cursor
  torn : Bool := false
  marked : Nat := 0
  indents : List Nat := []
  allowed : Bool := true
  candidate : Option Candidate := none
  outer : List (Option Candidate) := []
  lapsed : List Nat := []
  queue : List Word := []
  taken : Nat := 0
  deriving Repr, Inhabited

namespace Scan

/-- How many words are at hand at least. -/
def window : Nat := 3

/-- How many characters are at hand at least where a word starts. -/
def sight : Nat := 4

/-- How deep collections may nest. -/
def maxNesting : Nat := 10000

/-- Whether a flow collection is open. -/
def flow (s : Scan) : Bool := !s.outer.isEmpty

/-- One more than the column of the innermost block collection; zero if none is open. -/
def indent (s : Scan) : Nat := s.indents.headD 0

/-- A problem at this place. -/
def problem (s : Scan) (what : String) : Problem := .inWord s.here.line s.here what

/-- Adds a word that starts on a line. -/
def push (s : Scan) (token : Token) (line : Nat) : Scan :=
  { s with queue := s.queue ++ [⟨token, line⟩] }

/-- Goes on at a place, after a comment that ends its line. -/
def goTo (s : Scan) (cur : Cursor) : Scan := { s with here := cur.skipTrailingComment }

/-! ## Candidates -/

/-- The candidate outside all flow collections. -/
def outermost (s : Scan) : Option Candidate := s.outer.getLast?.getD s.candidate

/-- Looks at a candidate: whether it is fresh. A required one must be. -/
def check (s : Scan) (c : Candidate) : Except Problem Bool :=
  if c.isFresh s.here then .ok true
  else if c.required then .error (c.problem s.here)
  else .ok false

/-- Remembers a candidate outside all flow collections that is no longer fresh. -/
def lapse (s : Scan) (c : Candidate) : Scan := { s with lapsed := c.number :: s.lapsed }

/-- Gives up the candidate of this level. -/
def dropCandidate (s : Scan) : Except Problem Scan :=
  match s.candidate with
  | some c => if c.required then .error (c.problem s.here) else .ok { s with candidate := none }
  | none => .ok s

/-- Makes what starts here a candidate, if a key could start here. -/
def saveCandidate (s : Scan) : Except Problem Scan := do
  if !s.allowed then return s
  let t ← s.dropCandidate
  let required := !s.flow && s.indent == s.here.column + 1
  let here := s.here
  let found := Candidate.mk required (s.taken + s.queue.length) here.index here.line here.column
  return { t with candidate := some found }

/-! ## Blocks -/

/-- The words with one more in front of the one with a number. -/
def insertWord (s : Scan) (number : Nat) (w : Word) : List Word :=
  s.queue.take (number - s.taken) ++ w :: s.queue.drop (number - s.taken)

/-- Opens a block collection in a column, with its word in front of the one with a number, unless one is
open in this column already. In flow collections indentation means nothing. -/
def openBlock (s : Scan) (column number : Nat) (token : Token) (line : Nat) : Except Problem Scan :=
  if s.flow || column < s.indent then .ok s
  else if maxNesting ≤ s.indents.length then
    .error (.inWord ((s.candidate.map (·.line)).getD 0) s.here
      ("exceeded max depth of " ++ toString maxNesting))
  else .ok { s with indents := (column + 1) :: s.indents, queue := s.insertWord number ⟨token, line⟩ }

/-- Opens a block collection at this place. -/
def openBlockHere (s : Scan) (token : Token) : Except Problem Scan :=
  s.openBlock s.here.column (s.taken + s.queue.length) token s.here.line

/-- Closes the block collections whose entry in `indents` is greater than `limit`. -/
def closeBlocks (s : Scan) (limit : Nat) : Scan :=
  if s.flow then s
  else
    let closed := s.indents.takeWhile (limit < ·)
    { s with
      indents := s.indents.drop closed.length
      queue := s.queue ++ closed.map fun _ => ⟨.blockEnd, s.here.line⟩ }

/-! ## Room between words -/

/-- How many characters are still at hand that arrived with a byte order mark at the front of the text, of
`marked` such characters: none once a character behind them was needed. -/
def stillMarked (marked reached : Nat) : Nat := if reached ≤ marked then marked else 0

/-- Past blanks, comments and line breaks, whether a key could start there, and what is left of `marked`.
Where a key could start, tabs do not count as blanks, unless a flow collection is open. As long as the
characters that arrived with a byte order mark are at hand, that mark hides the first character of each
line. -/
def skipSpace (marked : Nat) (flow allowed : Bool) (cur : Cursor) : Bool × Nat × Cursor :=
  let first := if cur.column = 0 && cur.index < marked then cur.skip 1 else cur
  let word := first.skipWhile fun c => c == ' ' || ((flow || !allowed) && c == '\t')
  let comment := word.head? == some '#'
  let stop := if comment then word.skipComments else word
  let marked := if comment then stillMarked marked (stop.skipRoom.index + 1) else marked
  match _hb : stop.takeBreak with
  | some (_, after) => skipSpace marked flow (allowed || !flow) after
  | none => (allowed, marked, stop)
termination_by cur.rest.length
decreasing_by
  have hfirst : first.rest.length ≤ cur.rest.length := by
    show (if _ then cur.skip 1 else cur).rest.length ≤ _
    split
    · exact cur.length_skip_le 1
    · exact Nat.le_refl _
  have hword : word.rest.length ≤ first.rest.length := first.length_skipWhile_le _
  have hstop : stop.rest.length ≤ word.rest.length := by
    show (if _ then word.skipComments else word).rest.length ≤ _
    split
    · exact word.length_skipComments_le
    · exact Nat.le_refl _
  have := Cursor.length_of_takeBreak _hb
  omega

/-! ## Words, one by one -/

/-- What the end of a document and everything between documents have in common: all blocks are closed, and
no key can start before the next line. -/
def leaveDocument (s : Scan) : Except Problem Scan := do
  let s ← (s.closeBlocks 0).dropCandidate
  return { s with allowed := false }

/-- The end of the text, on a line of its own. -/
def readEnd (s : Scan) : Except Problem Scan := do
  let here := s.here
  let here := if here.column = 0 then here else { here with line := here.line + 1, column := 0 }
  let s ← { s with here }.leaveDocument
  return s.push .streamEnd here.line

/-- A directive. -/
def readDirective (s : Scan) : Except Problem Scan := do
  let s ← s.leaveDocument
  let (token, after) ← takeDirective s.here
  return { s.push token s.here.line with here := after }

/-- The beginning or the end of a document. -/
def readMark (s : Scan) (token : Token) : Except Problem Scan := do
  let s ← s.leaveDocument
  return { s.push token s.here.line with here := s.here.skip 3 }

/-- The beginning of a flow collection, which may be a key as a whole. -/
def openFlow (s : Scan) (token : Token) : Except Problem Scan := do
  let s ← s.saveCandidate
  if maxNesting ≤ s.outer.length then
    .error (.inWord 0 s.here ("exceeded max depth of " ++ toString maxNesting))
  let s := { s with outer := s.candidate :: s.outer, candidate := none, allowed := true }
  return (s.push token s.here.line).goTo (s.here.skip 1)

/-- The end of a flow collection. -/
def closeFlow (s : Scan) (token : Token) : Except Problem Scan := do
  let s ← s.dropCandidate
  let s := { s with candidate := s.outer.headD s.candidate, outer := s.outer.tail, allowed := false }
  return (s.push token s.here.line).goTo (s.here.skip 1)

/-- A comma. -/
def readComma (s : Scan) : Except Problem Scan := do
  let s ← s.dropCandidate
  return ({ s with allowed := true }.push .comma s.here.line).goTo (s.here.skip 1)

/-- The dash of a sequence's entry. A comment after it belongs to what follows. -/
def readDash (s : Scan) : Except Problem Scan := do
  if !s.flow && !s.allowed then
    .error (s.problem "block sequence entries are not allowed in this context")
  let s ← (← s.openBlockHere .blockSeq).dropCandidate
  return { { s with allowed := true }.push .dash s.here.line with here := s.here.skip 1 }

/-- The question mark before a key. -/
def readQuestion (s : Scan) : Except Problem Scan := do
  if !s.flow && !s.allowed then
    .error (s.problem "mapping keys are not allowed in this context")
  let s ← (← s.openBlockHere .blockMap).dropCandidate
  return ({ s with allowed := !s.flow }.push .key s.here.line).goTo (s.here.skip 1)

/-- Makes a candidate a key, the first one of a mapping perhaps. -/
def makeKey (s : Scan) (c : Candidate) : Except Problem Scan := do
  let t := { s with queue := s.insertWord c.number ⟨.key, c.line⟩ }
  let t ← t.openBlock c.column c.number .blockMap c.line
  return { t with candidate := none, allowed := false }

/-- Begins a value without a candidate for its key: that one came after a question mark, or there is
none. -/
def startValue (s : Scan) : Except Problem Scan := do
  if !s.flow && !s.allowed then
    .error (s.problem "mapping values are not allowed in this context")
  let s ← s.openBlockHere .blockMap
  return { s with allowed := !s.flow }

/-- The colon before a value. It makes a key of the candidate, if that is fresh. -/
def readColon (s : Scan) : Except Problem Scan := do
  let s ←
    match s.candidate with
    | some c =>
      if ← s.check c then s.makeKey c else (if s.flow then s else s.lapse c).startValue
    | none => s.startValue
  return (s.push .value s.here.line).goTo (s.here.skip 1)

/-- An anchor or the reference to one. -/
def readName (s : Scan) (token : String → Token) : Except Problem Scan := do
  let s ← s.saveCandidate
  let (name, after) ← takeName s.here
  return ({ s with allowed := false }.push (token name) s.here.line).goTo after

/-- A tag. -/
def readTag (s : Scan) : Except Problem Scan := do
  let s ← s.saveCandidate
  let (handle, suffix, after) ← takeTag s.here
  return ({ s with allowed := false }.push (.tag handle suffix) s.here.line).goTo after

/-- A block of lines. -/
def readBlock (s : Scan) : Except Problem Scan := do
  let s ← s.dropCandidate
  let (text, after) ← block s.indent s.here
  let s := { s with allowed := true }.push (.scalar false (String.ofList text)) s.here.line
  return { s with here := after }

/-- A scalar between quotation marks. -/
def readQuoted (s : Scan) (q : Char) : Except Problem Scan := do
  let s ← s.saveCandidate
  let (text, after) ← quoted q s.here
  return ({ s with allowed := false }.push (.scalar false (String.ofList text)) s.here.line).goTo after

/-- A plain scalar. On a line below it a key can start. What stands there is looked at for more words of
the scalar, unless it is indented less. -/
def readPlain (s : Scan) : Except Problem Scan := do
  let s ← s.saveCandidate
  let (text, broken, after) ← plain s.flow s.indent s.here
  let reached := if s.flow || s.indent ≤ after.column then after.index + sight else after.index
  let marked := stillMarked s.marked reached
  let s := { s with allowed := broken, marked }.push (.scalar true (String.ofList text)) s.here.line
  return if broken then { s with here := after } else s.goTo after

/-- The word that starts with the character `c` and goes on with `r`. -/
def readWord (s : Scan) (c : Char) (r : List Char) : Except Problem Scan :=
  if s.here.column == 0 && c == '%' then s.readDirective
  else if s.here.atMark then s.readMark (if c == '-' then .documentStart else .documentEnd)
  else if c == '[' then s.openFlow .flowSeq
  else if c == '\x7b' then s.openFlow .flowMap
  else if c == ']' then s.closeFlow .flowSeqEnd
  else if c == '\x7d' then s.closeFlow .flowMapEnd
  else if c == ',' then s.readComma
  else if c == '-' && endsWord r then s.readDash
  else if c == '?' && (s.flow || endsWord r) then s.readQuestion
  else if c == ':' && (s.flow || endsWord r) then s.readColon
  else if c == '*' then s.readName .alias
  else if c == '&' then s.readName .anchor
  else if c == '!' then s.readTag
  else if (c == '|' || c == '>') && !s.flow then s.readBlock
  else if c == '\'' || c == '"' then s.readQuoted c
  else if startsPlain s.flow (c :: r) then s.readPlain
  else .error (s.problem "found character that cannot start any token")

/-- Reads one more word, and the ends of the blocks before it. -/
def readNext (s : Scan) : Except Problem Scan := do
  let (allowed, marked, here) := skipSpace s.marked s.flow s.allowed s.here
  let s := { s with allowed, marked, here }.closeBlocks (here.column + 1)
  let t ←
    match here.rest with
    | [] => s.readEnd
    | c :: r => s.readWord c r
  let reached := max (here.index + sight) (t.here.skipBlanks.index + 1)
  return { t with marked := stillMarked t.marked reached }

/-- Reads one more word, unless that comes too close to what cannot be read. -/
def readOn (s : Scan) : Except Problem Scan :=
  let unreadable := Problem.inMeaning "control characters are not allowed"
  match s.readNext with
  | .ok t => if s.torn && t.here.rest.length < sight then .error unreadable else .ok t
  | .error p => .error (if s.torn && p.left < sight then unreadable else p)

/-! ## The words at hand -/

/-- The candidate that the next word starts, if it starts one. -/
def started (s : Scan) : Option Candidate :=
  ((s.candidate :: s.outer).find? (Option.any (·.number == s.taken))).getD none

/-- Whether the next word is known, with enough words at hand. As long as the candidate it starts is fresh,
another word could come before it. If it started one that lapsed, it waits for the one that came in its
place. -/
def isReady (s : Scan) : Except Problem (Bool × Scan) := do
  if s.queue.length < window then return (false, s)
  match s.started with
  | some c => return (!(← s.check c), s)
  | none =>
    match if s.lapsed.contains s.taken then s.outermost else none with
    | some c => if ← s.check c then return (false, s) else return (true, s.lapse c)
    | none => return (true, s)

/-- Reads until the next word is known, at most so many words more. -/
def fillFrom : Nat → Scan → Except Problem Scan
  | 0, _ => .error .outOfFuel
  | fuel + 1, s => do
    let (ready, s) ← s.isReady
    if ready then return s else fillFrom fuel (← s.readOn)

/-- Reads until the next word is known. Each word but the end has a character of its own, and at the end no
candidate is fresh. -/
def fill (s : Scan) : Except Problem Scan := do
  let (ready, s) ← s.isReady
  if ready then return s else fillFrom (s.here.rest.length + window + 1) s

end Scan

end LetLang.Yaml
