import LetLang.Proofs.Parser.Calls

/-!
# The parser's fuel suffices

`Program.parse` gives its functions an amount of fuel computed from the number of tokens, and answers
with an empty program and no diagnostic if that were too little. Such an answer would be read as "this
text is fine", so everything else about the parser rests on its never being given.

What a call needs is linear in the number of tokens, with slope five (`Call.need`). Along a chain of calls that takes no
token the constants drop by one from caller to callee, and the longest such chain is

    statementFrom 5 → expressionFrom 4 → operand 3 → blockFrom 2 → statementsToBrace 1

after which the next call is made with a token less, and so with five more units to spend. That every plan asks only for
calls that need less (`Call.descends`) is the one thing that is shown function by function; that fuel suffices, and that
more of it changes nothing, holds of all plans alike.
-/

set_option autoImplicit false

namespace LetLang.Parser

/-! ## What a call needs -/

/-- The function that a call is of. -/
inductive Routine where
  | expression
  | expressionFrom
  | operand
  | operators
  | callFrom
  | moreArguments
  | parameters
  | moreParameters
  | blockFrom
  | statementsToBrace
  | statementFrom
  | statementsToEnd
  deriving DecidableEq

def Call.routine : Call → Routine
  | .expression _ => .expression
  | .expressionFrom _ _ => .expressionFrom
  | .operand _ _ => .operand
  | .operators _ _ => .operators
  | .callFrom _ _ => .callFrom
  | .moreArguments => .moreArguments
  | .parameters => .parameters
  | .moreParameters => .moreParameters
  | .blockFrom _ => .blockFrom
  | .statementsToBrace => .statementsToBrace
  | .statementFrom _ => .statementFrom
  | .statementsToEnd => .statementsToEnd

/-- What a function needs before it comes to take a token. -/
def Routine.slack : Routine → Nat
  | .statementFrom => 5
  | .expressionFrom => 4
  | .operand => 3
  | .blockFrom | .callFrom => 2
  | .expression | .operators | .moreArguments | .parameters | .moreParameters | .statementsToBrace
  | .statementsToEnd => 1

/-- The fuel that is enough for a call on these tokens. -/
def Call.need (c : Call) (ts : List Token) : Nat := 5 * ts.length + c.routine.slack

theorem Routine.slack_pos (r : Routine) : 0 < r.slack := by
  cases r <;> decide

theorem Routine.slack_le (r : Routine) : r.slack ≤ 5 := by
  cases r <;> decide

section
variable {c c' : Call} {ts us : List Token}

/-- With fewer tokens any call needs less than one with more of them. -/
theorem Call.need_lt_of_length (h : us.length < ts.length) : c'.need us < c.need ts := by
  have hle := c'.routine.slack_le
  have hpos := c.routine.slack_pos
  simp only [need]
  omega

/-- Otherwise it depends on what is called. -/
theorem Call.need_lt_of_slack (h : us.length ≤ ts.length) (hslack : c'.routine.slack < c.routine.slack) :
    c'.need us < c.need ts := by
  simp only [need]
  omega

end

/-! ## Plans that ask for less

The results of calls are not known here. All that a plan may use of them is that they leave no more tokens than the call
was given. -/

/-- The plan asks only for calls that need less than `n`, on no more than `len` tokens, and leaves no more. -/
def Plan.Descends {α : Type} (n len : Nat) : Plan α → Prop
  | .done none => False
  | .done (some r) => r.rest.length ≤ len
  | .ask c ts next => c.need ts < n ∧ ts.length ≤ len ∧
    ∀ r, r.rest.length ≤ ts.length → (next r).Descends n len

/-- On these tokens the plan asks only for calls that need less than `n`, and lengthens nothing. -/
def Steps.Descends {α : Type} (n : Nat) (x : Steps α) (ts : List Token) : Prop := (x ts).Descends n ts.length

section
variable {α β : Type} {n len : Nat} {ts : List Token}

theorem Plan.Descends.mono {len' : Nat} (hle : len ≤ len') {p : Plan α} (h : p.Descends n len) :
    p.Descends n len' := by
  induction p with
  | done outcome =>
    cases outcome with
    | none => exact h
    | some r => exact Nat.le_trans h hle
  | ask c ts next ih => exact ⟨h.1, Nat.le_trans h.2.1 hle, fun r hr => ih r (h.2.2 r hr)⟩

theorem Plan.Descends.andThen {p : Plan α} {f : Parsed α → Plan β} (h : p.Descends n len)
    (hf : ∀ r, r.rest.length ≤ len → (f r).Descends n len) : (p.andThen f).Descends n len := by
  induction p with
  | done outcome =>
    cases outcome with
    | none => exact h
    | some r => exact hf r h
  | ask c ts next ih => exact ⟨h.1, h.2.1, fun r hr => ih r (h.2.2 r hr)⟩

theorem descends_lift {p : Parser α} (h : Halts p ts) : (Steps.lift p).Descends n ts := by
  obtain ⟨r, hr, hle⟩ := h
  show Plan.Descends n ts.length (.done (p ts))
  rw [hr]
  exact hle

theorem descends_pure (a : α) (ts : List Token) : (pure a : Steps α).Descends n ts := descends_lift (halts_pure a ts)

theorem descends_call {c : Call} (h : c.need ts < n) : (Steps.call c).Descends n ts :=
  ⟨h, Nat.le_refl _, fun _ hr => hr⟩

/-- The second steps may use how much the first have left, but not what. -/
theorem Steps.Descends.bind {x : Steps α} {f : α → Steps β} (hx : x.Descends n ts)
    (hf : ∀ a rest, rest.length ≤ ts.length → (f a).Descends n rest) : (x >>= f).Descends n ts := by
  refine Plan.Descends.andThen hx fun a ha => Plan.Descends.mono ha ?_
  exact Plan.Descends.andThen (hf a.value a.rest ha) fun b hb => hb

/-- After steps that ask for nothing it is known what they have left. -/
theorem descends_lift_bind {p : Parser α} {f : α → Steps β} {a : α} {ds : List Diagnostic} {rest : List Token}
    (hp : p ts = some ⟨a, ds, rest⟩) (hle : rest.length ≤ ts.length) (hf : (f a).Descends n rest) :
    (Steps.lift p >>= f).Descends n ts := by
  show Plan.Descends n ts.length (Plan.andThen (.done (p ts)) _)
  rw [hp]
  show Plan.Descends n ts.length ((f a rest).andThen fun b => .done (some ⟨b.value, ds ++ b.diagnostics, b.rest⟩))
  exact Plan.Descends.mono hle (Plan.Descends.andThen hf fun b hb => hb)

theorem descends_token? {f : Option Token → Steps α} (hnil : (f none).Descends n [])
    (hcons : ∀ t rest, ts = t :: rest → (f (some t)).Descends n rest) : (Steps.lift token? >>= f).Descends n ts := by
  cases ts with
  | nil => exact descends_lift_bind rfl (Nat.le_refl _) hnil
  | cons t rest => exact descends_lift_bind rfl (Nat.le_succ _) (hcons t rest rfl)

theorem descends_take? {k : Token.Kind} {f : Option Token → Steps α} (hnone : (f none).Descends n ts)
    (hsome : ∀ t rest, rest.length < ts.length → (f (some t)).Descends n rest) :
    (Steps.lift (take? k) >>= f).Descends n ts := by
  rcases take?_cases k ts with ⟨t, rest, rfl, -, h⟩ | ⟨-, h⟩
  · exact descends_lift_bind h (Nat.le_succ _) (hsome t rest (Nat.lt_succ_self _))
  · exact descends_lift_bind h (Nat.le_refl _) hnone

theorem descends_expecting {k : Token.Kind} {o : α} {next : Token → Steps α}
    (h : ∀ t rest, rest.length < ts.length → (next t).Descends n rest) :
    (Steps.expecting k o next).Descends n ts := by
  cases ts with
  | nil => exact Nat.le_refl _
  | cons t rest =>
    show Plan.Descends n _ (if t.kind = k then next t rest else _)
    split
    · exact (h t rest (Nat.lt_succ_self _)).mono (Nat.le_succ _)
    · exact Nat.le_refl _

end

/-! ## One function at a time -/

namespace Call

theorem descends_operand (t : Token) (form : OperandForm) (ts : List Token) :
    (stepsOperand t form).Descends ((operand t form).need ts) ts := by
  cases form with
  | name | truth b => exact descends_pure _ _
  | number =>
    simp only [stepsOperand]
    cases integer? t.literal with
    | none => exact descends_lift (halts_report _ _ _)
    | some n => exact descends_pure _ _
  | signed =>
    refine (descends_call ?_).bind fun e rest _ => descends_pure _ _
    exact need_lt_of_slack (Nat.le_refl _) (by decide : Routine.expression.slack < Routine.operand.slack)
  | group =>
    refine (descends_call ?_).bind fun e rest _ => descends_expecting fun _ _ _ => descends_pure _ _
    exact need_lt_of_slack (Nat.le_refl _) (by decide : Routine.expression.slack < Routine.operand.slack)
  | conditional =>
    refine descends_expecting fun _ ts₁ h₁ => ?_
    refine (descends_call (need_lt_of_length (by omega))).bind fun c ts₂ h₂ => ?_
    refine descends_expecting fun _ ts₃ h₃ => descends_expecting fun brace ts₄ h₄ => ?_
    refine (descends_call (need_lt_of_length (by omega))).bind fun body ts₅ h₅ => ?_
    refine descends_take? (descends_pure _ _) fun kw ts₆ h₆ => descends_expecting fun brace' ts₇ h₇ => ?_
    exact (descends_call (need_lt_of_length (by omega))).bind fun other _ _ => descends_pure _ _
  | function =>
    refine descends_expecting fun _ ts₁ h₁ => ?_
    refine (descends_call (need_lt_of_length (by omega))).bind fun params ts₂ h₂ => ?_
    cases params with
    | none => exact descends_pure _ _
    | some params =>
      refine descends_expecting fun brace ts₃ h₃ => ?_
      exact (descends_call (need_lt_of_length (by omega))).bind fun body _ _ => descends_pure _ _

theorem descends_operators (place : Nat) (left : Expr) (ts : List Token) :
    (stepsOperators place left).Descends ((operators place left).need ts) ts := by
  cases ts with
  | nil => exact descends_lift_bind rfl (Nat.le_refl _) (descends_pure _ _)
  | cons t rest =>
    refine descends_lift_bind rfl (Nat.le_refl _) ?_
    dsimp only [List.head?_cons]
    split
    · -- the operator itself is taken, so all that follows it has fewer tokens
      refine descends_lift_bind rfl (Nat.le_succ _) ?_
      have hlt : rest.length < (t :: rest).length := Nat.lt_succ_self _
      split
      · refine (descends_call (need_lt_of_length hlt)).bind fun e rest' hle => descends_call ?_
        exact need_lt_of_length (Nat.lt_of_le_of_lt hle hlt)
      · refine (descends_call (need_lt_of_length hlt)).bind fun right rest' hle => descends_call ?_
        exact need_lt_of_length (Nat.lt_of_le_of_lt hle hlt)
    · exact descends_pure _ _

theorem descends_parameters (ts : List Token) : stepsParameters.Descends (parameters.need ts) ts := by
  fun_cases stepsParameters ts with
  | case1 lit ts => exact Nat.le_succ _
  | case2 name ts =>
    have hlt : ts.length < (⟨.ident, name⟩ :: ts : List Token).length := Nat.lt_succ_self _
    exact ⟨need_lt_of_length hlt, Nat.le_of_lt hlt, fun r hr => Nat.le_succ_of_le hr⟩
  | case3 ts h h' =>
    rw [Steps.Descends, stepsParameters]
    · exact Nat.le_refl _
    · exact h
    · exact h'

theorem descends_moreParameters (ts : List Token) : stepsMoreParameters.Descends (moreParameters.need ts) ts := by
  fun_cases stepsMoreParameters ts with
  | case1 c name ts =>
    have hlt : ts.length < (⟨.comma, c⟩ :: ⟨.ident, name⟩ :: ts : List Token).length :=
      Nat.lt_succ_of_lt (Nat.lt_succ_self _)
    exact ⟨need_lt_of_length hlt, Nat.le_of_lt hlt, fun r hr => Nat.le_trans hr (Nat.le_of_lt hlt)⟩
  | case2 c ts h =>
    rw [Steps.Descends, stepsMoreParameters]
    · exact Nat.le_succ _
    · exact h
  | case3 c ts => exact Nat.le_succ _
  | case4 ts h h' h'' =>
    rw [Steps.Descends, stepsMoreParameters]
    · exact Nat.le_refl _
    · exact h
    · exact h'
    · exact h''

theorem descends_statementFrom (t : Token) (ts : List Token) :
    (stepsStatementFrom t).Descends ((statementFrom t).need ts) ts := by
  have expression {place : Nat} {us : List Token} (h : us.length ≤ ts.length) :
      (Call.expression place).need us < (statementFrom t).need ts :=
    need_lt_of_slack h (by decide : Routine.expression.slack < Routine.statementFrom.slack)
  have close {α : Type} {a : α} (us : List Token) :
      (Steps.lift (take? .semicolon) >>= fun _ => pure a).Descends ((statementFrom t).need ts) us :=
    (descends_lift (halts_take? _ _)).bind fun _ _ _ => descends_pure _ _
  simp only [stepsStatementFrom]
  split
  · refine descends_expecting fun name ts₁ h₁ => descends_expecting fun _ ts₂ h₂ => ?_
    exact (descends_call (expression (by omega))).bind fun e ts₃ _ => close ts₃
  · refine descends_take? ?_ fun _ _ _ => descends_pure _ _
    exact (descends_call (expression (Nat.le_refl _))).bind fun e ts₁ _ => close ts₁
  · refine (descends_call ?_).bind fun e ts₁ _ => close ts₁
    exact need_lt_of_slack (Nat.le_refl _) (by decide : Routine.expressionFrom.slack < Routine.statementFrom.slack)

/-- **All that a call asks for needs less than the call.** -/
theorem descends (c : Call) (ts : List Token) : c.steps.Descends (c.need ts) ts := by
  cases c with
  | expression place =>
    refine descends_token? (descends_lift (halts_report _ _ _)) fun t rest hts => descends_call ?_
    subst hts
    exact need_lt_of_length (Nat.lt_succ_self _)
  | expressionFrom place t =>
    simp only [steps]
    cases t.kind.operandForm? with
    | none => exact descends_lift (halts_report _ _ _)
    | some form =>
      refine (descends_call ?_).bind fun left rest hle => descends_call ?_
      · exact need_lt_of_slack (Nat.le_refl _) (by decide : Routine.operand.slack < Routine.expressionFrom.slack)
      · exact need_lt_of_slack hle (by decide : Routine.operators.slack < Routine.expressionFrom.slack)
  | operand t form => exact descends_operand t form ts
  | operators place left => exact descends_operators place left ts
  | callFrom t callee =>
    refine descends_take? ?_ fun _ _ _ => descends_pure _ _
    refine (descends_call ?_).bind fun first ts₁ h₁ => (descends_call ?_).bind fun more ts₂ h₂ =>
      descends_expecting fun _ _ _ => descends_pure _ _
    · exact need_lt_of_slack (Nat.le_refl _) (by decide : Routine.expression.slack < Routine.callFrom.slack)
    · exact need_lt_of_slack h₁ (by decide : Routine.moreArguments.slack < Routine.callFrom.slack)
  | moreArguments =>
    refine descends_take? (descends_pure _ _) fun _ rest hlt => ?_
    refine (descends_call (need_lt_of_length hlt)).bind fun e ts₁ h₁ => ?_
    exact (descends_call (need_lt_of_length (Nat.lt_of_le_of_lt h₁ hlt))).bind fun more _ _ => descends_pure _ _
  | parameters => exact descends_parameters ts
  | moreParameters => exact descends_moreParameters ts
  | blockFrom brace =>
    refine (descends_call ?_).bind fun ss _ _ => descends_pure _ _
    exact need_lt_of_slack (Nat.le_refl _) (by decide : Routine.statementsToBrace.slack < Routine.blockFrom.slack)
  | statementsToBrace =>
    refine descends_token? (descends_lift (halts_report _ _ _)) fun t rest hts => ?_
    have hlt : rest.length < ts.length := hts ▸ Nat.lt_succ_self _
    dsimp only
    split
    · exact descends_pure _ _
    · refine (descends_call (need_lt_of_length hlt)).bind fun s ts₁ h₁ => ?_
      exact (descends_call (need_lt_of_length (Nat.lt_of_le_of_lt h₁ hlt))).bind fun ss _ _ => descends_pure _ _
  | statementFrom t => exact descends_statementFrom t ts
  | statementsToEnd =>
    refine descends_token? (descends_pure _ _) fun t rest hts => ?_
    have hlt : rest.length < ts.length := hts ▸ Nat.lt_succ_self _
    refine (descends_call (need_lt_of_length hlt)).bind fun s ts₁ h₁ => ?_
    exact (descends_call (need_lt_of_length (Nat.lt_of_le_of_lt h₁ hlt))).bind fun ss _ _ => descends_pure _ _

end Call

/-! ## Enough fuel -/

/-- A plan has an outcome if all that it asks for has. -/
theorem Plan.Descends.exec {α : Type} {n len : Nat} {answer : (c : Call) → Parser c.Result}
    (hanswer : ∀ c ts, c.need ts < n → Halts (answer c) ts) {p : Plan α} (h : p.Descends n len) :
    ∃ r, p.exec answer = some r ∧ r.rest.length ≤ len := by
  induction p with
  | done outcome =>
    cases outcome with
    | none => exact h.elim
    | some r => exact ⟨r, rfl, h⟩
  | ask c ts next ih =>
    obtain ⟨a, ha, hle⟩ := hanswer c ts h.1
    simp only [Plan.exec, ha, Option.bind_some]
    exact ih a (h.2.2 a hle)

/-- **What a call needs is enough for it.** -/
theorem Call.halts : ∀ {fuel : Nat} (c : Call) (ts : List Token), c.need ts ≤ fuel → Halts (c.run fuel) ts := by
  intro fuel
  -- on the fuel: what the plan asks for needs less, and is answered with one unit less
  induction fuel with
  | zero =>
    intro c ts h
    have hpos := c.routine.slack_pos
    simp only [need] at h
    omega
  | succ fuel ih =>
    intro c ts h
    rw [Halts, ← c.run_succ ts]
    exact (c.descends ts).exec fun c' us hlt => ih c' us (by omega)

theorem halts_statementsToEnd (fuel : Nat) (ts : List Token) (h : 5 * ts.length + 1 ≤ fuel) :
    Halts (statementsToEnd fuel) ts := Call.statementsToEnd.halts ts h

/-! ## More fuel changes nothing

A result that was given is given with more fuel too, diagnostics or not: the fuel is never looked at except to see
whether there is any. -/

/-- Whatever `p` gives, `q` gives too. -/
def Refines {α : Type} (p q : Parser α) : Prop := ∀ ts r, p ts = some r → q ts = some r

theorem Plan.exec_refines {α : Type} {answer answer' : (c : Call) → Parser c.Result}
    (h : ∀ c, Refines (answer c) (answer' c)) {p : Plan α} {r : Parsed α} (hr : p.exec answer = some r) :
    p.exec answer' = some r := by
  induction p with
  | done outcome => exact hr
  | ask c ts next ih =>
    obtain ⟨a, ha, hnext⟩ := Option.bind_eq_some_iff.mp hr
    exact Option.bind_eq_some_iff.mpr ⟨a, h c ts a ha, ih a hnext⟩

theorem Call.refines_succ : ∀ (fuel : Nat) (c : Call), Refines (c.run fuel) (c.run (fuel + 1)) := by
  intro fuel
  induction fuel with
  | zero =>
    intro c ts r hr
    cases c with
    | parameters | moreParameters => exact hr
    | _ => cases hr
  | succ fuel ih =>
    intro c ts r hr
    rw [← c.run_succ ts] at hr ⊢
    exact Plan.exec_refines ih hr

theorem Call.refines_of_le {fuel fuel' : Nat} (hle : fuel ≤ fuel') (c : Call) : Refines (c.run fuel) (c.run fuel') := by
  induction hle with
  | refl => exact fun _ _ h => h
  | step _ ih => exact fun ts r hr => refines_succ _ c ts r (ih ts r hr)

theorem statementFrom_mono {fuel fuel' : Nat} (hle : fuel ≤ fuel') (t : Token) :
    Refines (statementFrom fuel t) (statementFrom fuel' t) := (Call.statementFrom t).refines_of_le hle

theorem statementsToEnd_mono {fuel fuel' : Nat} (hle : fuel ≤ fuel') :
    Refines (statementsToEnd fuel) (statementsToEnd fuel') := Call.statementsToEnd.refines_of_le hle

/-! ## What a call gives -/

/-- The call gives this result if it has fuel. -/
def Call.Gives (c : Call) (ts : List Token) (r : Parsed c.Result) : Prop := ∃ fuel, c.run fuel ts = some r

section
variable {c : Call} {ts : List Token}

/-- Every call has a result, whatever the tokens. -/
theorem Call.exists_gives (c : Call) (ts : List Token) : ∃ r, c.Gives ts r ∧ r.rest.length ≤ ts.length := by
  obtain ⟨r, hr, hle⟩ := c.halts ts (Nat.le_refl _)
  exact ⟨r, ⟨_, hr⟩, hle⟩

theorem Call.Gives.unique {r r' : Parsed c.Result} (h : c.Gives ts r) (h' : c.Gives ts r') : r = r' := by
  obtain ⟨fuel, hr⟩ := h
  obtain ⟨fuel', hr'⟩ := h'
  have hmax := c.refines_of_le (Nat.le_max_left fuel fuel') ts r hr
  have hmax' := c.refines_of_le (Nat.le_max_right fuel fuel') ts r' hr'
  exact Option.some.inj (hmax.symm.trans hmax')

theorem Call.Gives.length_le {r : Parsed c.Result} (h : c.Gives ts r) : r.rest.length ≤ ts.length := by
  obtain ⟨r', hr', hle⟩ := c.exists_gives ts
  rwa [h.unique hr']

end

end LetLang.Parser

namespace LetLang

open LetLang.Parser

/-- **The fuel of `parse` is never used up**, so its answer is always what the statements gave. -/
theorem Program.parse_eq (ts : List Token) :
    ∃ r, statementsToEnd (fuelFor ts) ts = some r ∧ Program.parse ts = (r.value, r.diagnostics) := by
  obtain ⟨r, hr, -⟩ := halts_statementsToEnd (fuelFor ts) ts (by simp only [fuelFor]; omega)
  exact ⟨r, hr, by simp only [Program.parse, hr]⟩

/-- Any fuel with which the statements give something shows what `parse` answers. -/
theorem Program.parse_of_some {fuel : Nat} {ts : List Token} {r : Parsed Program}
    (h : statementsToEnd fuel ts = some r) : Program.parse ts = (r.value, r.diagnostics) := by
  obtain ⟨r', hr', hparse⟩ := Program.parse_eq ts
  have hgives : Call.statementsToEnd.Gives ts r := ⟨fuel, h⟩
  rwa [hgives.unique ⟨fuelFor ts, hr'⟩]

theorem Program.parse_nil : Program.parse [] = ([], []) :=
  Program.parse_of_some (statementsToEnd_nil 0)

/-- Reading goes on after a statement as if that were the beginning. -/
theorem Program.parse_of_statementFrom {fuel : Nat} {t : Token} {ts rest : List Token} {s : Option Stmt}
    {ds : List Diagnostic} (h : statementFrom fuel t ts = some ⟨s, ds, rest⟩) :
    Program.parse (t :: ts) = (s.toList ++ (Program.parse rest).1, ds ++ (Program.parse rest).2) := by
  obtain ⟨r, hr, hparse⟩ := Program.parse_eq rest
  have hs := statementFrom_mono (Nat.le_max_left fuel (fuelFor rest)) t ts _ h
  have hss := statementsToEnd_mono (Nat.le_max_right fuel (fuelFor rest)) rest r hr
  have hcons : statementsToEnd (max fuel (fuelFor rest) + 1) (t :: ts) =
      some ⟨s.toList ++ r.value, ds ++ (r.diagnostics ++ []), r.rest⟩ := by
    rw [statementsToEnd_cons]
    refine bind_eq_some.mpr ⟨_, ⟨s.toList ++ r.value, r.diagnostics ++ [], r.rest⟩, hs, ?_, rfl⟩
    exact bind_eq_some.mpr ⟨r, ⟨s.toList ++ r.value, [], r.rest⟩, hss, rfl, rfl⟩
  rw [Program.parse_of_some hcons, hparse, List.append_nil]

/-- There is a statement to be read as long as there are tokens. -/
theorem Program.exists_statementFrom (t : Token) (ts : List Token) : ∃ fuel r,
    statementFrom fuel t ts = some r ∧ r.rest.length ≤ ts.length := by
  obtain ⟨r, hr, hle⟩ := (Call.statementFrom t).halts ts (Nat.le_refl _)
  exact ⟨_, r, hr, hle⟩

end LetLang
