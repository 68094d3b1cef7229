import LetLang.Value

/-!
# Scopes

The store holds every scope of a run. A scope has its own bindings and, unless it is outermost, the
scope around it; it is never removed, because a function may still refer to it. Reading a name looks in
a scope, then in the scope around it, and so on outward; writing touches the one scope it is asked to.

A scope is known by its position in the store, and the scope around it was there first. So positions
decrease on the way outward, and a search ends: `get?` follows a link outward only if it leads to a
smaller position, which every link in a store built by `newScope` and `enclose` does.
-/

set_option autoImplicit false

namespace LetLang

/-- One scope: its own bindings, one for each name, and the scope around it. -/
structure Frame where
  bindings : List (String × Value) := []
  outer : Option ScopeId := none
  deriving Inhabited

namespace Frame

/-- The value a name has in this scope itself. -/
def get? (f : Frame) (name : String) : Option Value :=
  f.bindings.lookup name

/-- Gives a name a value in this scope, in place of the one it may have had. -/
def set (f : Frame) (name : String) (v : Value) : Frame :=
  { f with bindings := (name, v) :: f.bindings.filter fun b => b.1 != name }

end Frame

/-- All scopes of a run, each at its position. -/
structure Store where
  frames : Array Frame := #[]
  deriving Inhabited

namespace Store

/-- Adds an empty scope that nothing encloses. -/
def newScope (s : Store) : ScopeId × Store :=
  (s.frames.size, ⟨s.frames.push {}⟩)

/-- Adds an empty scope inside the scope `outer`. -/
def enclose (s : Store) (outer : ScopeId) : ScopeId × Store :=
  (s.frames.size, ⟨s.frames.push { outer := some outer }⟩)

/-- The scope around a scope. -/
def outer? (s : Store) (scope : ScopeId) : Option ScopeId :=
  (s.frames[scope]?).bind Frame.outer

/-- Gives a name a value in one scope. -/
def set (s : Store) (scope : ScopeId) (name : String) (v : Value) : Store :=
  ⟨s.frames.modify scope fun f => f.set name v⟩

/-- The value of a name as seen from a scope: the nearest one on the way outward. -/
def get? (s : Store) (scope : ScopeId) (name : String) : Option Value :=
  match s.frames[scope]? with
  | none => none
  | some f =>
    match f.get? name with
    | some v => some v
    | none =>
      match f.outer with
      | none => none
      | some o => if o < scope then s.get? o name else none
termination_by scope

end Store

end LetLang
