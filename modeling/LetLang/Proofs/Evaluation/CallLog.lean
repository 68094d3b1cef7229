import LetLang.Log
import LetLang.Proofs.Evaluation.Agreement
import LetLang.Tree.Parser
import Mathlib.Data.List.Chain

/-!
# Calls in the log

Every call that enters a body is logged with its depth. Read in order, these depths tell how calls were entered, but not
when they were left. Still they cannot be just any numbers: a call goes one deeper than where the run is, and returns
lead back one level at a time, never above the level at which a task started. `DepthWalk` says this of the depths of
calls between two points of a run. What can be seen of it in the log is that the first call has depth one and that no
call is more than one deeper than the call logged before it (`DepthWalk.inStep`).

That the depth is the same before and after every task is what makes the walk of a task start and end at one level, so
that the walks of two tasks in a row are one walk.
-/

set_option autoImplicit false

namespace LetLang

/-! ## Walks -/

/-- A way from the depth `d` to another depth, one level deeper with each call that is entered and one level back with
each that is left, never back beyond `d` and never deeper than the limit. The list holds the depths of the calls. -/
inductive DepthWalk (maxDepth : Int) (d : Nat) : List Nat → Nat → Prop where
  | start : DepthWalk maxDepth d [] d
  | enter {ds : List Nat} {k : Nat} : DepthWalk maxDepth d ds k → (0 < maxDepth → (k : Int) < maxDepth) →
      DepthWalk maxDepth d (ds ++ [k + 1]) (k + 1)
  | leave {ds : List Nat} {k : Nat} : DepthWalk maxDepth d ds (k + 1) → d ≤ k → DepthWalk maxDepth d ds k

/-- The depths of calls as one evaluation logs them: it starts with depth one, each next depth is at least one and at
most one more than the last, and none is beyond the limit, if there is one. -/
structure InStep (maxDepth : Int) (ds : List Nat) : Prop where
  first : ∀ d ∈ ds.head?, d = 1
  next : ∀ i, (h : i + 1 < ds.length) → 1 ≤ ds[i + 1] ∧ ds[i + 1] ≤ ds[i] + 1
  limit : 0 < maxDepth → ∀ d ∈ ds, (d : Int) ≤ maxDepth

namespace DepthWalk

variable {maxDepth : Int} {d k k' : Nat} {ds ds' : List Nat}

theorem le (h : DepthWalk maxDepth d ds k) : d ≤ k := by
  induction h with
  | start => exact Nat.le_refl d
  | enter _ _ ih => exact Nat.le_succ_of_le ih
  | leave _ hle _ => exact hle

theorem trans (h : DepthWalk maxDepth d ds k) (h' : DepthWalk maxDepth k ds' k') :
    DepthWalk maxDepth d (ds ++ ds') k' := by
  induction h' with
  | start => rwa [List.append_nil]
  | enter _ hlimit ih =>
    rw [← List.append_assoc]
    exact ih.enter hlimit
  | leave _ hle ih => exact ih.leave (Nat.le_trans h.le hle)

theorem lt_of_mem (h : DepthWalk maxDepth d ds k) : ∀ j ∈ ds, d < j := by
  induction h with
  | start => exact fun j hj => absurd hj (by simp)
  | enter hwalk _ ih =>
    intro j hj
    rcases List.mem_append.mp hj with hj | hj
    · exact ih j hj
    · rw [List.mem_singleton.mp hj]
      exact Nat.lt_succ_of_le hwalk.le
  | leave _ _ ih => exact ih

theorem le_maxDepth (h : DepthWalk maxDepth d ds k) (hpos : 0 < maxDepth) : ∀ j ∈ ds, (j : Int) ≤ maxDepth := by
  induction h with
  | start => exact fun j hj => absurd hj (by simp)
  | enter _ hlimit ih =>
    intro j hj
    rcases List.mem_append.mp hj with hj | hj
    · exact ih j hj
    · rw [List.mem_singleton.mp hj]
      have hlt := hlimit hpos
      omega
  | leave _ _ ih => exact ih

/-- The way is never deeper than the call that was entered last. -/
theorem le_getLast? (h : DepthWalk maxDepth d ds k) : ∀ j ∈ (d :: ds).getLast?, k ≤ j := by
  induction h with
  | start => simp
  | enter =>
    rw [← List.cons_append, List.getLast?_concat]
    simp
  | leave _ _ ih => exact fun j hj => Nat.le_of_succ_le (ih j hj)

theorem isChain (h : DepthWalk maxDepth d ds k) : (d :: ds).IsChain fun a b => b ≤ a + 1 := by
  induction h with
  | start => exact .singleton d
  | enter hwalk _ ih =>
    rw [← List.cons_append, List.isChain_append]
    refine ⟨ih, .singleton _, fun a ha b hb => ?_⟩
    obtain rfl := Option.some.inj hb
    exact Nat.succ_le_succ (hwalk.le_getLast? a ha)
  | leave _ _ ih => exact ih

theorem inStep (h : DepthWalk maxDepth 0 ds k) : InStep maxDepth ds where
  first := by
    cases ds with
    | nil => simp
    | cons a ds =>
      intro d hd
      obtain rfl := Option.some.inj hd
      have hle := (List.isChain_cons_cons.mp h.isChain).1
      have hlt := h.lt_of_mem a List.mem_cons_self
      omega
  next i hi := by
    have hchain := List.isChain_iff_getElem.mp h.isChain (i + 1) (by simpa using hi)
    exact ⟨h.lt_of_mem _ (List.getElem_mem hi), by simpa using hchain⟩
  limit := h.le_maxDepth

end DepthWalk

/-! ## What is noted -/

/-- The depth of a call and the number of its arguments, if the event is a call. -/
def Event.call? : Event → Option (Nat × Nat)
  | .called depth args => some (depth, args)
  | _ => none

/-- The line that a call leaves in the log. -/
def LogLine.ofCall (call : Nat × Nat) : LogLine :=
  ⟨.debug, "function call", [("depth", toString call.1), ("argument-count", toString call.2)]⟩

/-- The calls in the log of `m'` beyond the log of `m`, in order. -/
def Machine.LogsCalls (m m' : Machine) (calls : List (Nat × Nat)) : Prop :=
  ∃ lines, m'.log = m.log ++ lines ∧
    lines.filter (fun l => l.message == "function call") = calls.map LogLine.ofCall

theorem filter_logLines (es : List Event) :
    (es.filterMap Event.logLine?).filter (fun l => l.message == "function call") =
      (es.filterMap Event.call?).map LogLine.ofCall := by
  induction es with
  | nil => rfl
  | cons e es ih =>
    cases e with
    | called depth args => simp [Event.logLine?, Event.call?, LogLine.ofCall, ih]
    | checked | bound | failed => simp [List.filterMap_cons, Event.logLine?, Event.call?, ih]

/-- The calls that were entered between `m` and `m'` are a walk from the depth of the one to that of the other. -/
def Machine.Walks (maxDepth : Int) (m m' : Machine) : Prop :=
  ∃ since, m'.events = m.events ++ since ∧
    DepthWalk maxDepth m.depth ((since.filterMap Event.call?).map Prod.fst) m'.depth

namespace Machine

variable {maxDepth : Int} {m m₁ m₂ m₃ m' : Machine}

theorem Walks.trans (h : m₁.Walks maxDepth m₂) (h' : m₂.Walks maxDepth m₃) : m₁.Walks maxDepth m₃ := by
  obtain ⟨since, hevents, hwalk⟩ := h
  obtain ⟨since', hevents', hwalk'⟩ := h'
  refine ⟨since ++ since', by rw [hevents', hevents, List.append_assoc], ?_⟩
  rw [List.filterMap_append, List.map_append]
  exact hwalk.trans hwalk'

/-- Events that are no calls do not count. -/
theorem walks_of_silent (since : List Event) (hevents : m'.events = m.events ++ since)
    (hsilent : since.filterMap Event.call? = []) (hdepth : m'.depth = m.depth) : m.Walks maxDepth m' := by
  refine ⟨since, hevents, ?_⟩
  rw [hsilent, hdepth]
  exact .start

theorem Walks.refl (m : Machine) : m.Walks maxDepth m := walks_of_silent [] (List.append_nil _).symm rfl rfl

theorem walks_bindAll (scope : ScopeId) : ∀ (xs : List Ident) (vs : List Value) (m : Machine),
    m.Walks maxDepth (m.bindAll scope xs vs) := by
  intro xs
  induction xs with
  | nil => exact fun _ m => .refl m
  | cons x xs ih =>
    intro vs m
    cases vs with
    | nil => exact .refl m
    | cons v vs =>
      have hbind : m.Walks maxDepth (m.bind scope x.name v) :=
        walks_of_silent [.bound scope x.name v] List.reverse_cons rfl rfl
      exact hbind.trans (ih vs (m.bind scope x.name v))

theorem LogsCalls.of_events {since : List Event} (h : m'.events = m.events ++ since) :
    m.LogsCalls m' (since.filterMap Event.call?) := by
  refine ⟨since.filterMap Event.logLine?, ?_, filter_logLines since⟩
  rw [log, h, List.filterMap_append]
  rfl

end Machine

namespace Eval

open Machine

variable {limits : Limits} {m m' : Machine}

/-! ## Every task -/

theorem lt_of_forbidsCall_eq_false {depth : Nat} (h : limits.forbidsCall depth = false) (hpos : 0 < limits.maxDepth) :
    (depth : Int) < limits.maxDepth := by
  simp only [Limits.forbidsCall, hpos, decide_true, Bool.true_and, decide_eq_false_iff_not] at h
  exact Int.not_le.mp h

theorem walks_of_change (h : Change m m') : m.Walks limits.maxDepth m' ∧ m'.depth = m.depth := by
  cases h with
  | checked => exact ⟨walks_of_silent [.checked] List.reverse_cons rfl rfl, rfl⟩
  | bound scope x v => exact ⟨walks_of_silent [.bound scope x v] List.reverse_cons rfl rfl, rfl⟩
  | identity => exact ⟨walks_of_silent [] (List.append_nil _).symm rfl rfl, rfl⟩
  | failed fault => exact ⟨walks_of_silent [.failed fault] List.reverse_cons rfl rfl, rfl⟩

/-- A call that is entered is one more step of the walk. -/
theorem walks_called (hdeep : limits.forbidsCall m.depth = false) (outer : ScopeId) (params : List Ident)
    (args : List Value) : m.Walks limits.maxDepth (m.checked.called outer params args).2 := by
  have hchecked : m.Walks limits.maxDepth m.checked := (walks_of_change (.checked m)).1
  have henter : m.checked.Walks limits.maxDepth ((m.checked.enter args.length).enclose outer).2 :=
    ⟨[.called (m.depth + 1) args.length], List.reverse_cons, .enter .start (lt_of_forbidsCall_eq_false hdeep)⟩
  exact (hchecked.trans henter).trans (walks_bindAll _ params args _)

/-- Every task walks from where it starts, and ends at that depth again. -/
theorem walks_course : Course limits fun m m' => m.Walks limits.maxDepth m' ∧ m'.depth = m.depth where
  refl m := ⟨.refl m, rfl⟩
  trans h h' := ⟨h.1.trans h'.1, h'.2.trans h.2⟩
  change := walks_of_change
  call := by
    rintro m m' outer params args - hdeep ⟨hbody, hdepth⟩
    rw [(called_counts m.checked outer params args).1] at hdepth
    have hdepth' : m'.depth = m.depth + 1 := hdepth
    obtain ⟨since, hevents, hwalk⟩ := (walks_called hdeep outer params args).trans hbody
    rw [hdepth'] at hwalk
    have hleave : m'.leave.depth = m.depth := by
      show m'.depth - 1 = m.depth
      rw [hdepth', Nat.add_sub_cancel]
    refine ⟨⟨since, hevents, ?_⟩, hleave⟩
    rw [hleave]
    exact hwalk.leave (Nat.le_refl _)

theorem walks_passage :
    Passage limits (fun m m' => m.Walks limits.maxDepth m' ∧ m'.depth = m.depth) (Machine.Walks limits.maxDepth) where
  course := walks_course
  of_course h := h.1
  trans := .trans
  enter outer params args _ hdeep := walks_called hdeep outer params args

end Eval

/-! ## Evaluation -/

open Eval

theorem Machine.Walks.exists_logsCalls {maxDepth : Int} {m m' : Machine}
    (h : ({ m with depth := 0 } : Machine).Walks maxDepth m') :
    ∃ calls, m.LogsCalls m' calls ∧ InStep maxDepth (calls.map Prod.fst) := by
  obtain ⟨since, hevents, hwalk⟩ := h
  exact ⟨since.filterMap Event.call?, .of_events hevents, hwalk.inStep⟩

/-- **Calls are balanced.** Whatever was evaluated before and left on the machine, in the evaluation of a node every task
ends at the depth at which it started, whether it yields a value or fails for whatever reason; evaluation as a whole
ends at depth zero. At each of its points and at its end the calls that it has logged so far are in step. -/
theorem Machine.eval_balanced (m : Machine) (limits : Limits) (scope : ScopeId) (node : Node) :
    (∀ t m₁, Reaches limits (node.task scope) { m with depth := 0 } t m₁ →
      (∀ v m₂, Yields limits t m₁ v m₂ → m₂.depth = m₁.depth) ∧
      ∃ calls, m.LogsCalls m₁ calls ∧ InStep limits.maxDepth (calls.map Prod.fst)) ∧
    ∀ v m', m.Evaluates limits scope node v m' →
      m'.depth = 0 ∧ ∃ calls, m.LogsCalls m' calls ∧ InStep limits.maxDepth (calls.map Prod.fst) := by
  refine ⟨fun t m₁ hr => ⟨fun v m₂ hy => (walks_course.of_yields hy).2, ?_⟩, fun v m' h => ?_⟩
  · exact (walks_passage.of_reaches hr).exists_logsCalls
  · obtain ⟨hwalk, hdepth⟩ := walks_course.of_yields (Machine.evaluates_iff.mp h)
    exact ⟨hdepth, hwalk.exists_logsCalls⟩

/-- A function that calls itself and returns early, called in a row, as an argument, and at last with too many arguments. -/
def Program.nestedCalls : Program := (Program.ofSource (.ofString
  "let f = fn(n) \x7b if (n == 0) \x7b return 0; \x7d f(n - 1) \x7d; f(1); f(0); f(f(0)) + f(true, 1)")).1

/-- It fails at its end, after five calls, and the depth is zero again. -/
theorem Machine.eval_balanced_nestedCalls : ∃ fault m',
    (Machine.newScope {}).2.Evaluates {} 0 (.program .nestedCalls) (.error fault) m' ∧ m'.depth = 0 ∧
      ∃ calls, (Machine.newScope {}).2.LogsCalls m' calls ∧ calls.length = 5 ∧
        InStep defaultMaxDepth (calls.map Prod.fst) := by
  have hends : ((Machine.newScope {}).2.eval {} 60 0 (.program .nestedCalls)).any (fun r => r.1.isError &&
      (r.2.log.filter fun l => l.message == "function call").length == 5) = true := by decide +kernel
  obtain ⟨⟨v, m'⟩, heval, hboth⟩ := (Option.any_eq_true _ _).mp hends
  obtain ⟨herror, hfive⟩ := Bool.and_eq_true_iff.mp hboth
  obtain ⟨fault, rfl⟩ : ∃ fault, v = .error fault := by
    cases v with
    | error fault => exact ⟨fault, rfl⟩
    | _ => cases herror
  have h := Machine.evaluates_of_eval heval
  obtain ⟨hdepth, calls, hlogs, hstep⟩ := (Machine.eval_balanced _ {} 0 (.program .nestedCalls)).2 _ _ h
  refine ⟨fault, m', h, hdepth, calls, hlogs, ?_, hstep⟩
  obtain ⟨lines, hlog, hcalls⟩ := hlogs
  obtain rfl : m'.log = lines := hlog
  rw [← List.length_map (f := LogLine.ofCall), ← hcalls]
  exact beq_iff_eq.mp hfive

end LetLang
