import LetLang.Value

/-!
# Operators on values

The meaning of the operators, apart from the evaluation of their operands. An operator is any text, so
these functions are total over operators too: one that the language does not have is an error that names
it.

Two integers are treated first: on them every operator of the language is defined. Otherwise `==` and
`!=` compare values of any kind, and all other operators fail, with a message that says whether the
kinds already differ.
-/

set_option autoImplicit false

namespace LetLang.Value

/-- The value of an operator before an operand. -/
def unary (op : String) (v : Value) : Value :=
  match op, v with
  | "!", v => .bool (!v.isTruthy)
  | "-", .int n => .int (-n)
  | op, v => .error (.unknownUnary op v.kind)

/-- The value of an operator between two integers. Sums, differences and products wrap around; a
quotient is cut off toward zero, and the one that does not fit wraps around as well. -/
def arith (op : String) (a b : Int64) : Value :=
  match op with
  | "+" => .int (a + b)
  | "-" => .int (a - b)
  | "*" => .int (a * b)
  | "/" => if b = 0 then .error .divisionByZero else .int (a / b)
  | "<" => .bool (decide (a < b))
  | ">" => .bool (decide (b < a))
  | "==" => .bool (a == b)
  | "!=" => .bool (a != b)
  | op => .error (.unknownBinary .integer op .integer)

/-- The value of an operator between two operands. -/
def binary (op : String) (l r : Value) : Value :=
  match l, r with
  | .int a, .int b => arith op a b
  | l, r =>
    if op = "==" then .bool (l.same r)
    else if op = "!=" then .bool (!l.same r)
    else if l.kind = r.kind then .error (.unknownBinary l.kind op r.kind)
    else .error (.typeMismatch l.kind op r.kind)

end LetLang.Value
