import LetLang.Proofs.Parser.Fuel

/-!
# Calls get shorter

That the parser ends on every text is seen from the calls that it makes. Some are made without taking a token before, and
where the text ends no token is ever taken again, so the number of tokens left does not go down with each call. But it
goes down from one call of a function to the next that is made inside of it, whichever calls lie between: these need less
and less (`Call.descends`), and two calls of one function differ in what they need only by their tokens. The repetitions
are calls as well, so this is also why each round of a list of statements, arguments or parameters takes a token.
-/

set_option autoImplicit false

namespace LetLang.Parser

/-! ## The calls that are made -/

/-- The plan comes to asking for the call: at once, or after the results of what it asks for before. -/
inductive Asks {α : Type} : Plan α → Call → List Token → Prop where
  | now {c : Call} {ts : List Token} {next : Parsed c.Result → Plan α} : Asks (.ask c ts next) c ts
  | later {c c' : Call} {ts us : List Token} {next : Parsed c.Result → Plan α} {r : Parsed c.Result} :
      c.Gives ts r → Asks (next r) c' us → Asks (.ask c ts next) c' us

/-- Inside of the call another one is made, by the call itself or by one that is made inside of it. -/
inductive Call.Makes (c : Call) (ts : List Token) : Call → List Token → Prop where
  | itself {c' : Call} {us : List Token} : Asks (c.steps ts) c' us → Makes c ts c' us
  | within {c₁ c₂ : Call} {us vs : List Token} : Makes c ts c₁ us → Asks (c₁.steps us) c₂ vs → Makes c ts c₂ vs

section
variable {c c' : Call} {ts us : List Token}

theorem Plan.Descends.asks {α : Type} {n len : Nat} {p : Plan α} (ha : Asks p c us) : p.Descends n len →
    c.need us < n ∧ us.length ≤ len := by
  induction ha with
  | now => exact fun h => ⟨h.1, h.2.1⟩
  | later hr _ ih => exact fun h => ih (h.2.2 _ hr.length_le)

/-- What is made inside of a call needs less and has no more tokens. -/
theorem Call.Makes.need_lt (h : c.Makes ts c' us) : c'.need us < c.need ts ∧ us.length ≤ ts.length := by
  induction h with
  | itself ha => exact (c.descends ts).asks ha
  | @within c₁ c₂ us vs _ ha ih =>
    obtain ⟨hneed, hlen⟩ := (c₁.descends us).asks ha
    exact ⟨Nat.lt_trans hneed ih.1, Nat.le_trans hlen ih.2⟩

theorem Call.Makes.length_lt (h : c.Makes ts c' us) (hsame : c'.routine = c.routine) : us.length < ts.length := by
  have hneed := h.need_lt.1
  simp only [need, hsame] at hneed
  omega

end

/-! ## The end of the text -/

/-- Statements are read until no token is left. -/
theorem rest_of_statementsToEnd : ∀ {fuel : Nat} {ts : List Token} {r : Parsed Program},
    statementsToEnd fuel ts = some r → r.rest = [] := by
  intro fuel
  induction fuel with
  | zero => exact fun hr => nomatch hr
  | succ fuel ih =>
    intro ts r hr
    cases ts with
    | nil =>
      rw [statementsToEnd_nil] at hr
      obtain rfl := Option.some.inj hr
      rfl
    | cons t rest =>
      rw [statementsToEnd_cons] at hr
      obtain ⟨s, b, -, hb, rfl⟩ := bind_eq_some.mp hr
      obtain ⟨ss, d, hss, hd, rfl⟩ := bind_eq_some.mp hb
      obtain rfl := Option.some.inj hd
      have hrest : ss.rest = [] := ih hss
      exact hrest

/-- A block whose text ends is done, too. -/
theorem blockFrom_nil (fuel : Nat) (brace : Token) :
    blockFrom (fuel + 2) brace [] = some ⟨.mk brace [], [.expected .closeBrace .endOfInput], []⟩ := by
  rw [blockFrom, bind_eq_some]
  exact ⟨_, ⟨_, [], []⟩, statementsToBrace_nil fuel, rfl, rfl⟩

end LetLang.Parser

namespace LetLang

open LetLang.Parser

/-- **The parser comes to the end of every text.** Fuel that is linear in the number of tokens is enough to read them
all, and none gives another result. The calls that are made on the way are those of the plans that the functions carry
out. Inside of a call there are never more tokens left than it was given, and fewer in another call of the same function,
which includes the next round of a repetition; an expression inside of one that starts with a token has that token less.
Where no token is left, an expression and a block are reported and over at once. -/
theorem Program.ofSource_ends :
    (∀ src : Source, ∃ r, r.rest = [] ∧ Program.ofSource src = (r.value, r.diagnostics) ∧ ∀ fuel,
      (5 * src.tokens.length + 1 ≤ fuel → statementsToEnd fuel src.tokens = some r) ∧
      ∀ r', statementsToEnd fuel src.tokens = some r' → r' = r) ∧
    (∀ (c : Call) fuel ts, c.run (fuel + 1) ts = (c.steps ts).exec (Call.run fuel)) ∧
    (∀ (c c' : Call) ts us, c.Makes ts c' us →
      us.length ≤ ts.length ∧ (c'.routine = c.routine → us.length < ts.length)) ∧
    (∀ place place' t ts us, (Call.expressionFrom place t).Makes ts (.expression place') us →
      us.length < (t :: ts).length) ∧
    (∀ fuel place, expression (fuel + 1) place [] = some ⟨.missing, [.noOperand .endOfInput], []⟩) ∧
    ∀ fuel brace, blockFrom (fuel + 2) brace [] = some ⟨.mk brace [], [.expected .closeBrace .endOfInput], []⟩ := by
  refine ⟨fun src => ?_, fun c fuel ts => (c.run_succ ts).symm, fun c c' ts us h => ⟨h.need_lt.2, h.length_lt⟩,
    fun place place' t ts us h => Nat.lt_succ_of_le h.need_lt.2, expression_nil, blockFrom_nil⟩
  obtain ⟨r, hr, hparse⟩ := Program.parse_eq src.tokens
  have hgives : Call.statementsToEnd.Gives src.tokens r := ⟨Program.fuelFor src.tokens, hr⟩
  have hunique {fuel : Nat} {r' : Parsed Program} (hr' : statementsToEnd fuel src.tokens = some r') : r' = r :=
    Call.Gives.unique (c := .statementsToEnd) ⟨fuel, hr'⟩ hgives
  refine ⟨r, rest_of_statementsToEnd hr, hparse, fun fuel => ⟨fun hfuel => ?_, fun r' => hunique⟩⟩
  obtain ⟨r', hr', -⟩ := halts_statementsToEnd fuel src.tokens hfuel
  rwa [← hunique hr']

/-- A parenthesis that opens. -/
def Token.paren : Token := ⟨.openParen, "("⟩

/-- In a text that is over after two of them, the expression inside of both is a call with no token left. -/
theorem Program.ofSource_ends_parens :
    (∃ r : Parsed Program, r.rest = [] ∧ Program.ofSource (.ofString "((") = (r.value, r.diagnostics) ∧
      ∀ fuel ≥ 11, statementsToEnd fuel [.paren, .paren] = some r) ∧
    (Call.expression 0).Makes [.paren, .paren] (.expression 0) [] ∧
      ([] : List Token).length < [Token.paren, .paren].length := by
  obtain ⟨hends, -, hshorter, -, -, -⟩ := Program.ofSource_ends
  constructor
  · have htokens : (Source.ofString "((").tokens = [.paren, .paren] := by decide +kernel
    obtain ⟨r, hrest, hparse, hfuel⟩ := hends (.ofString "((")
    rw [htokens] at hfuel
    exact ⟨r, hrest, hparse, fun fuel h => (hfuel fuel).1 h⟩
  · have outer : (Call.expression 0).Makes [.paren, .paren] (.expressionFrom 0 .paren) [.paren] := .itself .now
    have group : (Call.expression 0).Makes [.paren, .paren] (.operand .paren .group) [.paren] := outer.within .now
    have inner : (Call.expression 0).Makes [.paren, .paren] (.expression 0) [.paren] := group.within .now
    have outer' : (Call.expression 0).Makes [.paren, .paren] (.expressionFrom 0 .paren) [] := inner.within .now
    have group' : (Call.expression 0).Makes [.paren, .paren] (.operand .paren .group) [] := outer'.within .now
    have inner' : (Call.expression 0).Makes [.paren, .paren] (.expression 0) [] := group'.within .now
    exact ⟨inner', (hshorter _ _ _ _ inner').2 rfl⟩

end LetLang
