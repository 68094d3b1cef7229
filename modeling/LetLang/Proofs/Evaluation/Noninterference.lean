import LetLang.Log
import LetLang.Proofs.Evaluation.Simulation
import LetLang.Proofs.Evaluation.Writes

/-!
# What a call depends on

Scoping is lexical: a body sees the scope its function was made in, the scopes around that one, and the arguments. From
these it can come to the functions that are bound there, and to their scopes in turn, but to nothing else. Above all not
to the scope of the caller, and not to what earlier calls have left in the store.

`Renaming.Preserves` says of two machines that the scopes and identities which a renaming relates are the same on either
side as far as a run can see. It is closed under everything that can be reached from a scope, because the scopes around a
related scope and the values in it have to be related too; of what is not related it says nothing. So it is enough to
relate a function and its arguments, and the call does the same on both machines (`apply_noninterference`).
-/

set_option autoImplicit false

namespace LetLang

/-! ## Heaps that look the same -/

/-- The renaming preserves what can be seen from the scopes it relates: the bindings of a scope, the scopes in which a
search goes on, and which functions are the same. It relates only what is there on both machines. -/
structure Renaming.Preserves (R : Renaming) (m m' : Machine) : Prop where
  scope_lt : ∀ {s s' : ScopeId}, R.scope s s' → s < m.store.frames.size ∧ s' < m'.store.frames.size
  identity_lt : ∀ {i i' : Nat}, R.identity i i' → i < m.fresh ∧ i' < m'.fresh
  next? : ∀ {s s' : ScopeId}, R.scope s s' → Option.Rel R.scope (m.store.next? s) (m'.store.next? s')
  own? : ∀ {s s' : ScopeId} (x : String), R.scope s s' →
    Option.Rel (Value.Renamed R) (m.store.own? s x) (m'.store.own? s' x)

namespace Renaming

/-- A pair of new things can be added to a one-to-one correspondence. -/
theorem eq_iff_of_added {r : Nat → Nat → Prop} {a a' s s' t t' : Nat}
    (hr : ∀ {s s' t t'}, r s s' → r t t' → (s = t ↔ s' = t')) (hnew : ∀ s s', r s s' → s ≠ a ∧ s' ≠ a')
    (hs : r s s' ∨ s = a ∧ s' = a') (ht : r t t' ∨ t = a ∧ t' = a') : s = t ↔ s' = t' := by
  rcases hs with hs | ⟨rfl, rfl⟩
  · rcases ht with ht | ⟨rfl, rfl⟩
    · exact hr hs ht
    · simp [hnew s s' hs]
  · rcases ht with ht | ⟨rfl, rfl⟩
    · simp [(hnew t t' ht).1.symm, (hnew t t' ht).2.symm]
    · simp

def withScope (R : Renaming) (a a' : ScopeId) (h : ∀ s s', R.scope s s' → s ≠ a ∧ s' ≠ a') : Renaming where
  scope s s' := R.scope s s' ∨ s = a ∧ s' = a'
  identity := R.identity
  scope_iff := eq_iff_of_added R.scope_iff h
  identity_iff := R.identity_iff

def withIdentity (R : Renaming) (a a' : Nat) (h : ∀ i i', R.identity i i' → i ≠ a ∧ i' ≠ a') : Renaming where
  scope := R.scope
  identity i i' := R.identity i i' ∨ i = a ∧ i' = a'
  scope_iff := R.scope_iff
  identity_iff := eq_iff_of_added R.identity_iff h

variable {R S : Renaming} {m m' n n' : Machine}

theorem optionRel_mono (hle : R ≤ S) {o o' : Option Value} (h : Option.Rel (Value.Renamed R) o o') :
    Option.Rel (Value.Renamed S) o o' := by
  cases h with
  | none => exact .none
  | some h => exact .some (h.mono hle)

theorem renamed_getD {o o' : Option Value} (h : Option.Rel (Value.Renamed R) o o') (fault : Fault) :
    (o.getD (.error fault)).Renamed R (o'.getD (.error fault)) := by
  cases h with
  | none => exact .error fault
  | some h => exact h

/-- What the searches from related scopes find is related, or they both find nothing. -/
theorem Preserves.get? (h : R.Preserves m m') (x : String) : ∀ {s s' : ScopeId}, R.scope s s' →
    Option.Rel (Value.Renamed R) (m.store.get? s x) (m'.store.get? s' x) := by
  intro s
  -- on the position of the scope, which a search lowers with every step outward
  induction s using Nat.strongRecOn with
  | ind s ih =>
    intro s' hs
    rw [Store.get?_eq, Store.get?_eq m'.store]
    have hown := h.own? x hs
    generalize m.store.own? s x = o, m'.store.own? s' x = o' at hown
    cases hown with
    | some hv => exact .some hv
    | none =>
      have hnext := h.next? hs
      generalize ho : m.store.next? s = o, m'.store.next? s' = o' at hnext
      cases hnext with
      | none => exact .none
      | some ht => exact ih _ (Store.lt_of_next? ho) ht

/-- Only the store and the next identity matter. -/
theorem Preserves.congr (h : R.Preserves m m') (hs : n.store = m.store) (hs' : n'.store = m'.store)
    (hf : m.fresh ≤ n.fresh) (hf' : m'.fresh ≤ n'.fresh) : R.Preserves n n' where
  scope_lt := by
    rw [hs, hs']
    exact h.scope_lt
  identity_lt hi := ⟨Nat.lt_of_lt_of_le (h.identity_lt hi).1 hf, Nat.lt_of_lt_of_le (h.identity_lt hi).2 hf'⟩
  next? := by
    rw [hs, hs']
    exact h.next?
  own? := by
    rw [hs, hs']
    exact h.own?

theorem Preserves.bind (h : R.Preserves m m') {s s' : ScopeId} {v v' : Value} (hs : R.scope s s')
    (hv : v.Renamed R v') (x : String) : R.Preserves (m.bind s x v) (m'.bind s' x v') where
  scope_lt ht := by
    simp only [Machine.bind, Store.size_set]
    exact h.scope_lt ht
  identity_lt := h.identity_lt
  next? ht := by
    simp only [Machine.bind, Store.next?_set]
    exact h.next? ht
  own? {t t'} y ht := by
    simp only [Machine.bind]
    -- it is the same binding on both sides, because the renaming is one-to-one
    have hiff : t = s ∧ y = x ↔ t' = s' ∧ y = x := and_congr_left fun _ => R.scope_iff ht hs
    by_cases hself : t = s ∧ y = x
    · obtain ⟨rfl, rfl⟩ := hself
      obtain ⟨rfl, -⟩ := hiff.mp ⟨rfl, rfl⟩
      rw [Store.own?_set_self (h.scope_lt ht).1, Store.own?_set_self (h.scope_lt ht).2]
      exact .some hv
    · rw [Store.own?_set_of_ne hself, Store.own?_set_of_ne (hiff.not.mp hself)]
      exact h.own? y ht

theorem Preserves.takeIdentity (h : R.Preserves m m') : ∃ S, R ≤ S ∧
    S.identity m.takeIdentity.1 m'.takeIdentity.1 ∧ S.Preserves m.takeIdentity.2 m'.takeIdentity.2 := by
  have hfresh (i i' : Nat) (hi : R.identity i i') : i ≠ m.fresh ∧ i' ≠ m'.fresh :=
    ⟨Nat.ne_of_lt (h.identity_lt hi).1, Nat.ne_of_lt (h.identity_lt hi).2⟩
  have hle : R ≤ R.withIdentity m.fresh m'.fresh hfresh := ⟨fun _ _ hs => hs, fun _ _ hi => .inl hi⟩
  refine ⟨R.withIdentity m.fresh m'.fresh hfresh, hle, .inr ⟨rfl, rfl⟩, ?_⟩
  refine ⟨h.scope_lt, fun hi => ?_, h.next?, fun x hs => optionRel_mono hle (h.own? x hs)⟩
  simp only [Machine.takeIdentity]
  rcases hi with hi | ⟨rfl, rfl⟩
  · exact ⟨Nat.lt_succ_of_lt (h.identity_lt hi).1, Nat.lt_succ_of_lt (h.identity_lt hi).2⟩
  · exact ⟨Nat.lt_succ_self _, Nat.lt_succ_self _⟩

theorem Preserves.enclose (h : R.Preserves m m') {s s' : ScopeId} (hs : R.scope s s') : ∃ S, R ≤ S ∧
    S.scope (m.enclose s).1 (m'.enclose s').1 ∧ S.Preserves (m.enclose s).2 (m'.enclose s').2 := by
  have hfresh (t t' : ScopeId) (ht : R.scope t t') :
      t ≠ m.store.frames.size ∧ t' ≠ m'.store.frames.size :=
    ⟨Nat.ne_of_lt (h.scope_lt ht).1, Nat.ne_of_lt (h.scope_lt ht).2⟩
  have hle : R ≤ R.withScope m.store.frames.size m'.store.frames.size hfresh :=
    ⟨fun _ _ ht => .inl ht, fun _ _ hi => hi⟩
  have hkeep {t t' : ScopeId} (ht : R.scope t t') := And.intro
    (Store.keeps_enclose m.store s t (h.scope_lt ht).1) (Store.keeps_enclose m'.store s' t' (h.scope_lt ht).2)
  refine ⟨R.withScope m.store.frames.size m'.store.frames.size hfresh, hle, .inr ⟨rfl, rfl⟩, ?_⟩
  refine ⟨fun ht => ?_, h.identity_lt, fun ht => ?_, fun x ht => ?_⟩
  · simp only [Machine.enclose, Store.enclose, Array.size_push]
    rcases ht with ht | ⟨rfl, rfl⟩
    · exact ⟨Nat.lt_succ_of_lt (h.scope_lt ht).1, Nat.lt_succ_of_lt (h.scope_lt ht).2⟩
    · exact ⟨Nat.lt_succ_self _, Nat.lt_succ_self _⟩
  · simp only [Machine.enclose]
    rcases ht with ht | ⟨rfl, rfl⟩
    · rw [Store.next?_eq_of_frames (hkeep ht).1, Store.next?_eq_of_frames (hkeep ht).2]
      have hnext := h.next? ht
      generalize m.store.next? _ = o, m'.store.next? _ = o' at hnext
      cases hnext with
      | none => exact .none
      | some ho => exact .some (.inl ho)
    · have hnew := Store.next?_enclose (h.scope_lt hs).1
      have hnew' := Store.next?_enclose (h.scope_lt hs).2
      simp only [Store.enclose] at hnew hnew' ⊢
      rw [hnew, hnew']
      exact .some (.inl hs)
  · simp only [Machine.enclose]
    rcases ht with ht | ⟨rfl, rfl⟩
    · rw [Store.own?_eq_of_frames (hkeep ht).1, Store.own?_eq_of_frames (hkeep ht).2]
      exact optionRel_mono hle (h.own? x ht)
    · have hnew := Store.own?_enclose m.store s x
      have hnew' := Store.own?_enclose m'.store s' x
      simp only [Store.enclose] at hnew hnew' ⊢
      rw [hnew, hnew']
      exact .none

end Renaming

/-! ## The log -/

theorem Machine.log_of_trace {m n : Machine} {e : Event} (h : n.trace = e :: m.trace) :
    n.log = m.log ++ e.logLine?.toList := by
  rw [Machine.log, Machine.log, Machine.events, Machine.events, h, List.reverse_cons, List.filterMap_append]
  cases e <;> rfl

/-- Both logs have grown by the same lines. -/
def SameLines (m₀ m₀' m m' : Machine) : Prop := ∃ lines, m.log = m₀.log ++ lines ∧ m'.log = m₀'.log ++ lines

theorem SameLines.cons {m₀ m₀' m m' n n' : Machine} {e e' : Event} (h : SameLines m₀ m₀' m m')
    (hn : n.trace = e :: m.trace) (hn' : n'.trace = e' :: m'.trace) (he : e'.logLine? = e.logLine?) :
    SameLines m₀ m₀' n n' := by
  obtain ⟨lines, hlines, hlines'⟩ := h
  refine ⟨lines ++ e.logLine?.toList, ?_, ?_⟩
  · rw [Machine.log_of_trace hn, hlines, List.append_assoc]
  · rw [Machine.log_of_trace hn', hlines', he, List.append_assoc]

/-! ## Calls -/

namespace Eval

open Renaming

/-- The machines correspond if the renaming preserves what is related, as many calls are under way, and the log has
grown by the same lines since the machines `m₀` and `m₀'`. -/
def scopedSimulation (maxDepth : Int) (m₀ m₀' : Machine) : Simulation { maxDepth, patience := .endless } where
  Corresponds R m m' := R.Preserves m m' ∧ m'.depth = m.depth ∧ SameLines m₀ m₀' m m'
  answer _ := rfl
  checked := by
    rintro R m m' ⟨h, hdepth, hlines⟩
    exact ⟨h.congr rfl rfl (Nat.le_refl _) (Nat.le_refl _), hdepth, hlines.cons rfl rfl rfl⟩
  depth h := h.2.1
  enter n h := by
    obtain ⟨h, hdepth, hlines⟩ := h
    refine ⟨h.congr rfl rfl (Nat.le_refl _) (Nat.le_refl _), congrArg (· + 1) hdepth, hlines.cons rfl rfl ?_⟩
    rw [hdepth]
  leave := by
    rintro R m m' ⟨h, hdepth, hlines⟩
    exact ⟨h.congr rfl rfl (Nat.le_refl _) (Nat.le_refl _), congrArg (· - 1) hdepth, hlines⟩
  failed fault h := by
    obtain ⟨h, hdepth, hlines⟩ := h
    exact ⟨h.congr rfl rfl (Nat.le_refl _) (Nat.le_refl _), hdepth, hlines.cons rfl rfl rfl⟩
  name x h hs := renamed_getD (h.1.get? x hs) _
  bind x h hs hv := ⟨h.1.bind hs hv x, h.2.1, h.2.2.cons rfl rfl rfl⟩
  takeIdentity h := by
    obtain ⟨S, hle, hi, hS⟩ := h.1.takeIdentity
    exact ⟨S, hle, hi, hS, h.2⟩
  enclose h hs := by
    obtain ⟨S, hle, hs', hS⟩ := h.1.enclose hs
    exact ⟨S, hle, hs', hS, h.2⟩

end Eval

open Eval

/-- **The outcome of a call depends only on the function, its arguments and what can be reached from them.** On machines
on which these are the same up to a renaming, whatever else the machines hold, the call ends on neither or on both. If it
ends, the values are the same up to a renaming that has grown, they are of the same kind and have the same text, and both
logs have grown by the same lines. -/
theorem apply_noninterference (maxDepth : Int) {R : Renaming} {m m' : Machine} {f f' : Value}
    {args args' : List Value} (hheap : R.Preserves m m') (hdepth : m'.depth = m.depth) (hf : f.Renamed R f')
    (hargs : List.Forall₂ (Value.Renamed R) args args') :
    (∀ fuel, Eval.apply { maxDepth, patience := .endless } fuel f args m = none ∧
      Eval.apply { maxDepth, patience := .endless } fuel f' args' m' = none) ∨
    ∃ (v v' : Value) (n n' : Machine) (S : Renaming) (lines : List LogLine),
      (∃ enough, ∀ fuel ≥ enough,
        Eval.apply { maxDepth, patience := .endless } fuel f args m = some (v, n) ∧
        Eval.apply { maxDepth, patience := .endless } fuel f' args' m' = some (v', n')) ∧
      R ≤ S ∧ v.Renamed S v' ∧ S.Preserves n n' ∧ v'.kind = v.kind ∧ v'.text = v.text ∧
      n.log = m.log ++ lines ∧ n'.log = m'.log ++ lines := by
  have hstart : (scopedSimulation maxDepth m m').Corresponds R m m' :=
    ⟨hheap, hdepth, [], (List.append_nil _).symm, (List.append_nil _).symm⟩
  rcases Simulation.ends_iff (Task.Renamed.apply hf hargs) hstart with hnone | hends
  · exact .inl hnone
  · obtain ⟨v, v', n, n', S, hle, hv, ⟨hheap', -, lines, hlines, hlines'⟩, hfuel⟩ := hends
    exact .inr ⟨v, v', n, n', S, lines, hfuel, hle, hv, hheap', hv.kind_eq, hv.text_eq, hlines, hlines'⟩

/-- A function that makes functions, with the given identity and scope. -/
def makeAdder (identity : Nat) (scope : ScopeId) : Value :=
  .fn identity [⟨⟨.ident, "a"⟩, "a"⟩]
    (.mk ⟨.openBrace, "\x7b"⟩ (Program.ofSource (.ofString "fn(b) \x7b a + b + x \x7d")).1) scope

/-- A machine with one scope and one function. -/
def tidyMachine : Machine where
  store := ⟨#[{ bindings := [("x", .int 1)] }]⟩
  fresh := 1

/-- A machine on which the same scope stands last, after others that earlier calls have left. -/
def crowdedMachine : Machine where
  store := ⟨#[{ bindings := [("x", .bool true), ("b", .null)] }, { bindings := [("a", .int 9)], outer := some 0 },
    { bindings := [("x", .int 1)] }]⟩
  fresh := 8
  asked := 5
  trace := [.called 1 1]

def tidying : Renaming where
  scope s s' := s = 0 ∧ s' = 2
  identity i i' := i = 0 ∧ i' = 7
  scope_iff := by
    rintro s s' t t' ⟨rfl, rfl⟩ ⟨rfl, rfl⟩
    simp
  identity_iff := by
    rintro i i' j j' ⟨rfl, rfl⟩ ⟨rfl, rfl⟩
    simp

theorem tidying_preserves : tidying.Preserves tidyMachine crowdedMachine where
  scope_lt := by
    rintro s s' ⟨rfl, rfl⟩
    decide
  identity_lt := by
    rintro i i' ⟨rfl, rfl⟩
    decide
  next? := by
    rintro s s' ⟨rfl, rfl⟩
    exact .none
  own? x := by
    rintro ⟨rfl, rfl⟩
    show Option.Rel _ (List.lookup x [("x", Value.int 1)]) (List.lookup x [("x", Value.int 1)])
    rw [List.lookup_cons]
    split
    · exact .some (.int 1)
    · exact .none

theorem apply_noninterference_adder : ∃ (v v' : Value) (n n' : Machine) (S : Renaming),
    (∃ enough, ∀ fuel ≥ enough,
      Eval.apply {} fuel (makeAdder 0 0) [.int 4] tidyMachine = some (v, n) ∧
      Eval.apply {} fuel (makeAdder 7 2) [.int 4] crowdedMachine = some (v', n')) ∧
    v.Renamed S v' ∧ v'.text = v.text := by
  have hends : (Eval.apply {} 9 (makeAdder 0 0) [.int 4] tidyMachine).isSome = true := by decide +kernel
  have hf : (makeAdder 0 0).Renamed tidying (makeAdder 7 2) := .fn _ _ ⟨rfl, rfl⟩ ⟨rfl, rfl⟩
  have h := apply_noninterference defaultMaxDepth tidying_preserves rfl hf (.cons (.int 4) .nil)
  rcases h with hnone | ⟨v, v', n, n', S, _, hfuel, -, hv, -, -, htext, -⟩
  · rw [(hnone 9).1] at hends
    exact absurd hends (by simp)
  · exact ⟨v, v', n, n', S, hfuel, hv, htext⟩

end LetLang
