import LetLang.Store

/-!
# The state of a run

A run works on a machine: the store of scopes, the next unused identity, the number of calls that are
under way, and what happened so far. What happened is kept as a trace of events, newest first; the
program's log is a view of it, and so is the number of times the run asked whether to go on.

Two limits bound a run from outside, and neither changes while it lasts: the depth to which calls may
nest, and the *patience* of whoever waits for it. The run asks before each statement and each call
whether to go on. Patience is a number of such questions, not a span of time, so a run is a function of
its input.
-/

set_option autoImplicit false

namespace LetLang

/-- How long a run may go on: for ever, or until it has asked `checks` times. -/
inductive Patience where
  | endless
  | upTo (checks : Nat) (why : Interrupt)
  deriving DecidableEq, Repr, Inhabited

/-- The answer to the question whether to go on, asked after `asked` earlier questions. -/
def Patience.answer (p : Patience) (asked : Nat) : Option Interrupt :=
  match p with
  | .endless => none
  | .upTo checks why => if asked < checks then none else some why

/-- Nested calls that are allowed unless something else is said. -/
def defaultMaxDepth : Int := 4096

/-- The limits of a run. A `maxDepth` of zero or less is no limit. -/
structure Limits where
  maxDepth : Int := defaultMaxDepth
  patience : Patience := .endless
  deriving Repr, Inhabited

/-- Whether one more call would go too deep when `depth` calls are under way. -/
def Limits.forbidsCall (limits : Limits) (depth : Nat) : Bool :=
  0 < limits.maxDepth && limits.maxDepth ≤ depth

/-- What can happen in a run. -/
inductive Event where
  /-- The run asked whether to go on. -/
  | checked
  /-- A name got a value in a scope. -/
  | bound (scope : ScopeId) (name : String) (value : Value)
  /-- A function body was entered; `depth` counts this call too. -/
  | called (depth args : Nat)
  /-- A statement of the program ended in an error. -/
  | failed (fault : Fault)
  deriving Inhabited

/-- The state of a run. -/
structure Machine where
  store : Store := {}
  /-- The next identity that no value has yet. -/
  fresh : Nat := 0
  /-- Calls under way. -/
  depth : Nat := 0
  /-- How often the run has asked whether to go on. -/
  asked : Nat := 0
  /-- What happened, newest first. -/
  trace : List Event := []
  deriving Inhabited

namespace Machine

/-- Notes an event. -/
def note (m : Machine) (e : Event) : Machine :=
  { m with trace := e :: m.trace }

/-- Adds an empty scope that nothing encloses. -/
def newScope (m : Machine) : ScopeId × Machine :=
  let (id, store) := m.store.newScope
  (id, { m with store })

/-- Adds an empty scope inside another. -/
def enclose (m : Machine) (outer : ScopeId) : ScopeId × Machine :=
  let (id, store) := m.store.enclose outer
  (id, { m with store })

/-- Gives a name a value in a scope. -/
def bind (m : Machine) (scope : ScopeId) (name : String) (v : Value) : Machine :=
  { m with store := m.store.set scope name v, trace := .bound scope name v :: m.trace }

/-- Gives several names their values in a scope, the first name first. -/
def bindAll (m : Machine) (scope : ScopeId) : List Ident → List Value → Machine
  | x :: xs, v :: vs => (m.bind scope x.name v).bindAll scope xs vs
  | _, _ => m

/-- Asks whether to go on. -/
def check (m : Machine) (p : Patience) : Option Interrupt × Machine :=
  (p.answer m.asked, { m with asked := m.asked + 1, trace := .checked :: m.trace })

/-- Takes an identity that no other value has. -/
def takeIdentity (m : Machine) : Nat × Machine :=
  (m.fresh, { m with fresh := m.fresh + 1 })

/-- Enters a call. -/
def enter (m : Machine) (args : Nat) : Machine :=
  { m with depth := m.depth + 1, trace := .called (m.depth + 1) args :: m.trace }

/-- Leaves a call. -/
def leave (m : Machine) : Machine :=
  { m with depth := m.depth - 1 }

/-- What happened, in order. -/
def events (m : Machine) : List Event := m.trace.reverse

end Machine

end LetLang
