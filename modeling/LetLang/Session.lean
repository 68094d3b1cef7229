import LetLang.Evaluation
import LetLang.Tree.Parser

/-!
# Sessions

A session evaluates one text after the other in the same scope, so what one text binds the next can use.
A text with diagnostics is not evaluated at all: it leaves the session as it was.

The trace of the machine is that of the latest text alone. The count of questions whether to go on is
not reset from text to text, so one waiter's patience can cover a whole session; `renewPatience` starts
the count again for a new waiter.
-/

set_option autoImplicit false

namespace LetLang

/-- The outcome of one text: the messages of its diagnostics, or else a value. -/
structure Result where
  messages : List String := []
  value : Value := .absent
  deriving Inhabited

/-- How a result is shown, as the texts written for it one by one: a heading and a line for each message,
else a line for the value, else nothing. -/
def Result.writes (r : Result) : List String :=
  if r.messages.isEmpty then
    if r.value.isPresent then [r.value.text ++ "\n"] else []
  else "Syntax errors!\n" :: r.messages.map fun m => "\t" ++ m ++ "\n"

/-- A session: how deep its calls may nest, its scope, and the machine it runs on. -/
structure Session where
  maxDepth : Int
  scope : ScopeId
  machine : Machine
  deriving Inhabited

namespace Session

/-- The line that ends every loop over a session. -/
def exitLine : Source := Source.ofString "exit"

/-- A session with nothing bound. -/
def new (maxDepth : Int) : Session :=
  let (scope, machine) := Machine.newScope {}
  { maxDepth, scope, machine }

/-- Starts counting anew how often the session asks whether to go on. -/
def renewPatience (s : Session) : Session :=
  { s with machine := { s.machine with asked := 0 } }

/-- The value a name has in the session. -/
def get? (s : Session) (name : String) : Option Value :=
  s.machine.store.get? s.scope name

/-- Evaluates a text, unless it has diagnostics. -/
def eval (s : Session) (patience : Patience) (fuel : Nat) (src : Source) :
    Option (Result × Session) :=
  let machine := { s.machine with trace := [] }
  match Program.ofSource src with
  | (p, []) =>
    match machine.eval { maxDepth := s.maxDepth, patience } fuel s.scope (.program p) with
    | none => none
    | some (v, machine) => some ({ value := v }, { s with machine })
  | (_, ds) => some ({ messages := ds.map Diagnostic.message }, { s with machine })

end Session

end LetLang
