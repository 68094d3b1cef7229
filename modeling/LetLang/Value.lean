import LetLang.Fault
import LetLang.Tree.Printer

/-!
# Values

What a run computes with. Beside the values a program can write down (integers, truth values, `null`,
functions) there are three that mark how a run went: an error, the operand of a `return` on its way to
the call that it ends, and `absent`, for statements that yield nothing at all.

Integers are 64-bit words: arithmetic wraps around.

Functions and returned values have an **identity**, a number that no other value of the run has.
Equality of anything but two integers asks for the same value, not for an equal one; for truth values
and `null` there is one value each, so this is plain equality, and for functions it means "made by the
same evaluation of the same function literal". `absent` counts as `null` where messages name kinds, but
it is not `null`: it is not false in a condition, and it equals only itself.
-/

set_option autoImplicit false

namespace LetLang

/-- A scope, by its position in the store. -/
abbrev ScopeId := Nat

/-- Values. -/
inductive Value where
  /-- Nothing: a binding, or an empty program, yields this. -/
  | absent
  | int (n : Int64)
  | bool (b : Bool)
  | null
  /-- The operand of a `return`, on its way out. -/
  | returned (identity : Nat) (inner : Value)
  /-- A function and the scope its literal was evaluated in. -/
  | fn (identity : Nat) (params : List Ident) (body : Block) (scope : ScopeId)
  | error (fault : Fault)
  deriving Inhabited

namespace Value

/-- The kind of a value; where nothing is, `null` is named. -/
def kind : Value → Kind
  | .absent => .null
  | .int _ => .integer
  | .bool _ => .boolean
  | .null => .null
  | .returned _ _ => .returned
  | .fn _ _ _ _ => .function
  | .error _ => .error

/-- Whether there is a value at all. -/
def isPresent : Value → Bool
  | .absent => false
  | _ => true

/-- Whether a value is an error. A returned error is not one: it is on its way out. -/
def isError : Value → Bool
  | .error _ => true
  | _ => false

/-- Conditions take every value for true but `false` and `null`; zero is true. -/
def isTruthy : Value → Bool
  | .bool b => b
  | .null => false
  | _ => true

/-- The text a value is shown as. A returned value shows its operand; where nothing is, nothing is
shown. -/
def text : Value → String
  | .absent => ""
  | .int n => toString n.toInt
  | .bool true => "true"
  | .bool false => "false"
  | .null => "null"
  | .returned _ v => v.text
  | .fn _ params body _ =>
    "fn(" ++ Ident.list params ++ ") \x7b\n" ++ body.text ++ "\n\x7d"
  | .error fault => "ERROR: " ++ fault.message

/-- Whether two values are the same. Errors are never asked: they end an expression before any operator
sees them. -/
def same : Value → Value → Bool
  | .absent, .absent => true
  | .int a, .int b => a == b
  | .bool a, .bool b => a == b
  | .null, .null => true
  | .returned i _, .returned j _ => i == j
  | .fn i _ _ _, .fn j _ _ _ => i == j
  | _, _ => false

end Value

end LetLang
