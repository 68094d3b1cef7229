/-!
# What can go wrong in a run

A run that fails does not stop the interpreter: it yields an error *value*, and the value carries its
cause. The causes are told apart here, and each has one wording, so that a statement about failures
never has to speak about texts.
-/

set_option autoImplicit false

namespace LetLang

/-- The kinds of values, as far as the language itself tells them apart. -/
inductive Value.Kind where
  | integer
  | boolean
  | null
  | returned
  | function
  | error
  deriving DecidableEq, Repr, Inhabited

/-- The name under which messages speak of a kind. -/
def Value.Kind.name : Value.Kind → String
  | .integer => "INTEGER"
  | .boolean => "BOOLEAN"
  | .null => "NULL"
  | .returned => "RETURN_VALUE"
  | .function => "FUNCTION"
  | .error => "ERROR"

/-- Why a run was told to stop. Whoever stops it may give a reason of their own. -/
inductive Interrupt where
  | canceled
  | deadlineExceeded
  | other (message : String)
  deriving DecidableEq, Repr, Inhabited

/-- The wording of an interruption. -/
def Interrupt.message : Interrupt → String
  | .canceled => "context canceled"
  | .deadlineExceeded => "context deadline exceeded"
  | .other message => message

/-- The causes of an error value. -/
inductive Fault where
  | notFound (name : String)
  | unknownUnary (operator : String) (operand : Value.Kind)
  | unknownBinary (left : Value.Kind) (operator : String) (right : Value.Kind)
  | typeMismatch (left : Value.Kind) (operator : String) (right : Value.Kind)
  | divisionByZero
  | notAFunction (kind : Value.Kind)
  | argumentCount (want got : Nat)
  | tooDeep (limit : Int)
  | cancelled (why : Interrupt)
  /-- An error that was made outside and handed in as a value. -/
  | foreign (message : String)
  deriving DecidableEq, Repr, Inhabited

/-- The wording of a fault. -/
def Fault.message : Fault → String
  | .notFound name => "identifier not found: " ++ name
  | .unknownUnary op k => "unknown operator: " ++ op ++ k.name
  | .unknownBinary l op r => "unknown operator: " ++ l.name ++ " " ++ op ++ " " ++ r.name
  | .typeMismatch l op r => "type mismatch: " ++ l.name ++ " " ++ op ++ " " ++ r.name
  | .divisionByZero => "division by zero"
  | .notAFunction k => "not a function: " ++ k.name
  | .argumentCount want got =>
    "wrong number of arguments: want=" ++ toString want ++ ", got=" ++ toString got
  | .tooDeep limit => "maximum call depth exceeded (" ++ toString limit ++ ")"
  | .cancelled why => "evaluation cancelled: " ++ why.message
  | .foreign message => message

end LetLang
