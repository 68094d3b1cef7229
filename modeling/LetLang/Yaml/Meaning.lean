import LetLang.Text.Octets
import LetLang.Yaml.Number
import LetLang.Yaml.Problem
import LetLang.Yaml.Tag
import LetLang.Yaml.Timestamp

/-!
# What scalars mean

A scalar may stand for itself, as text, or for something else: the absence of a value, a truth value, a
number or a date. The text decides, and its first character already says which of these to try, so text
that looks like a number only further on stays text. A tag can demand one of them; what is not of that
sort is refused.
-/

set_option autoImplicit false

namespace LetLang.Yaml

/-- What a scalar means. Of a number that is not an integer only the integer matters that it is cut to, if
it is within range. -/
inductive Meaning where
  | null
  | bool
  | int (n : Int)
  | float (cut : Option Int)
  | timestamp
  | text (content : String)
  deriving DecidableEq, Repr, Inhabited

/-- The tag of a meaning. -/
def Meaning.tag : Meaning → Tag
  | .null => .null
  | .bool => .bool
  | .int _ => .int
  | .float _ => .float
  | .timestamp => .timestamp
  | .text _ => .str

/-- Words with a meaning of their own. -/
def words : List (String × Meaning) :=
  [("", .null), ("~", .null), ("null", .null), ("Null", .null), ("NULL", .null),
    ("true", .bool), ("True", .bool), ("TRUE", .bool),
    ("false", .bool), ("False", .bool), ("FALSE", .bool),
    (".nan", .float none), (".NaN", .float none), (".NAN", .float none),
    (".inf", .float none), (".Inf", .float none), (".INF", .float none),
    ("+.inf", .float none), ("+.Inf", .float none), ("+.INF", .float none),
    ("-.inf", .float (some leastInt)), ("-.Inf", .float (some leastInt)),
    ("-.INF", .float (some leastInt))]

/-- The meaning of a decimal, if there is a floating-point number near it. -/
def decimalMeaning? (d : Decimal) : Option Meaning :=
  d.whole?.map fun n => .float (cut d.negative n)

/-- The meaning of something that starts like a number. Underscores do not count, but if it starts with a
point they may stand between digits only. -/
def number? (dates : Bool) (cs : List Char) : Option Meaning :=
  match cs with
  | '.' :: _ => ((Decimal.joinDigits? false cs).bind Decimal.read?).bind decimalMeaning?
  | c :: _ =>
    if !(c.isDigit || c == '+' || c == '-') then none
    else if dates && isTimestamp cs then some .timestamp
    else
      let cs := cs.filter (· != '_')
      match integer? cs with
      | some n => some (.int n)
      | none => (Decimal.read? cs).bind decimalMeaning?
  | [] => none

/-- What a text means by itself. Only where `dates` says so it may be a date. -/
def wordMeaning (dates : Bool) (s : String) : Meaning :=
  match words.lookup s with
  | some m => m
  | none => (number? dates s.toList).getD (.text s)

/-- The tag of a scalar that was given none. Between quotation marks everything is text. -/
def impliedTag (plain : Bool) (s : String) : Tag :=
  if !plain then .str
  else if s == "<<" then .merge
  else (wordMeaning true s).tag

/-- What octets written in base 64 say. Line breaks among them do not count. -/
def binaryMeaning (s : String) : Except Problem Meaning :=
  match Text.base64? (s.toList.filter fun c => c != '\n' && c != '\r') with
  | some bytes => .ok (.text (String.ofList (Text.ofOctets bytes)))
  | none => .error (.inMeaning "!!binary value contains invalid base64 data")

/-- The meaning of a scalar with a tag. An integer will do where a floating-point number is demanded, if it
has at most 63 binary digits; it is then what the nearest such number is. -/
def meaning (tag : Tag) (s : String) : Except Problem Meaning :=
  if tag = .binary then binaryMeaning s
  else if !tag.isResolved then .ok (.text s)
  else
    let m := wordMeaning (tag == .timestamp) s
    let refused :=
      Except.error (.inMeaning ("cannot decode " ++ m.tag.name ++ " `" ++ s ++ "` as a " ++ tag.name))
    if m.tag = tag then .ok m
    else
      match tag, m with
      | .float, .int n =>
        if n ≤ Int64.maxValue.toInt then .ok ((decimalMeaning? ⟨n < 0, n.natAbs, 0⟩).getD m) else refused
      | _, _ => refused

end LetLang.Yaml
