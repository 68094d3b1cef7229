import LetLang.Proofs.Grammar.Leading
import LetLang.Proofs.Parser.Soundness

/-!
# The parser accepts exactly the grammar

The converse of soundness. A sequence in the grammar is given to the parser as it is met, from the left: as
tokens that start with a phrase and go on with some `K`. What a function leaves is then again something that
the grammar allows there, so the next function can be asked.

An expression in a place of some binding power may stop in the middle of what the grammar calls one
expression, at an operator that does not bind tightly enough. So what it leaves is `After K` and not `K`:
perhaps further operators, which are for a caller to read. In the place that nothing binds there are none
left (`After.settled`), and this is how lists, groups and statements get their continuation back.
-/

set_option autoImplicit false

namespace LetLang.Parser

open Grammar

/-! ## Arguments after the first -/

/-- What may follow an argument, when `K` may follow all of them. -/
def AfterArgument (K : List Token → Prop) (ts : List Token) : Prop :=
  K ts ∨ Tok .comma (Then .argumentList K) ts

theorem argumentList_split {K : List Token → Prop} {ts : List Token}
    (h : Then .argumentList K ts) : Then .expr (AfterArgument K) ts := by
  obtain ⟨args, rest, rfl, ha, hK⟩ := h
  cases ha with
  | oneArgument he => exact ⟨_, rest, rfl, he, Or.inl hK⟩
  | moreArguments he ht hes =>
    exact ⟨_, _, List.append_assoc _ _ _, he, Or.inr ⟨_, _, rfl, ht, _, rest, rfl, hes, hK⟩⟩

theorem steady_afterArgument (K : List Token → Prop) :
    Steady (AfterArgument (Tok .closeParen K)) :=
  steady_of_kindAhead [.closeParen, .comma] (by simp; decide) fun h => by
    rcases h with h | h <;> simp [h.kindAhead_eq]

/-! ## Parameters -/

theorem moreParameters_complete {K : List Token → Prop} (ts : List Token) :
    Tok .closeParen K ts ∨ Tok .comma (Then .parameterList (Tok .closeParen K)) ts →
    (moreParameters ts).diagnostics = [] ∧ (∃ xs, (moreParameters ts).value = some xs) ∧
      K (moreParameters ts).rest := by
  fun_induction moreParameters ts with
  | case1 c name ts more ih =>
    rintro (⟨t, rest, hts, ht, -⟩ | ⟨t, rest, hts, -, xs, rest', hrest, hxs, hp⟩)
    · obtain ⟨rfl, -⟩ := List.cons.inj hts
      exact absurd ht (by simp)
    · obtain ⟨-, rfl⟩ := List.cons.inj hts
      cases hxs with
      | oneParameter hx =>
        obtain ⟨-, rfl⟩ := List.cons.inj hrest
        obtain ⟨hd, ⟨ys, hys⟩, hK⟩ := ih (Or.inl hp)
        exact ⟨hd, ⟨_, congrArg (Option.map _) hys⟩, hK⟩
      | moreParameters hx ht hxs =>
        obtain ⟨-, rfl⟩ := List.cons.inj hrest
        obtain ⟨hd, ⟨ys, hys⟩, hK⟩ := ih (Or.inr ⟨_, _, rfl, ht, _, rest', rfl, hxs, hp⟩)
        exact ⟨hd, ⟨_, congrArg (Option.map _) hys⟩, hK⟩
  | case2 c ts hnot =>
    -- a name must follow the comma, so this branch is not taken
    rintro (⟨t, rest, hts, ht, -⟩ | ⟨t, rest, hts, -, xs, rest', hrest, hxs, hp⟩)
    · obtain ⟨rfl, -⟩ := List.cons.inj hts
      exact absurd ht (by simp)
    · obtain ⟨-, rfl⟩ := List.cons.inj hts
      cases hxs with
      | @oneParameter x hx => exact (hnot x.literal rest' (by rw [hrest, ← hx]; rfl)).elim
      | @moreParameters x t xs hx ht hxs =>
        exact (hnot x.literal _ (by rw [hrest, ← hx]; rfl)).elim
  | case3 c ts =>
    rintro (⟨t, rest, hts, -, hK⟩ | ⟨t, rest, hts, ht, -⟩)
    · obtain ⟨-, rfl⟩ := List.cons.inj hts
      exact ⟨rfl, ⟨[], rfl⟩, hK⟩
    · obtain ⟨rfl, -⟩ := List.cons.inj hts
      exact absurd ht (by simp)
  | case4 ts h₁ h₂ h₃ =>
    rintro (⟨⟨_, lit⟩, rest, rfl, rfl, -⟩ | ⟨⟨_, lit⟩, rest, rfl, rfl, -⟩)
    · exact (h₃ _ _ rfl).elim
    · exact (h₂ _ _ rfl).elim

theorem parameters_complete {K : List Token → Prop} {ts : List Token}
    (h : Then .parameters (Tok .closeParen K) ts) :
    Cleanly parameters ts fun xs rest => ∃ params, xs = some params ∧ K rest := by
  intro r hr
  obtain ⟨xs, rest, rfl, hxs, hp⟩ := h
  cases hxs with
  | noParameters =>
    obtain ⟨⟨_, lit⟩, rest, rfl, rfl, hK⟩ := hp
    obtain rfl := Option.some.inj hr
    exact ⟨rfl, [], rfl, hK⟩
  | someParameters hxs =>
    cases hxs with
    | @oneParameter x hx =>
      obtain ⟨_, lit⟩ := x
      obtain rfl := hx
      obtain ⟨hd, ⟨ys, hys⟩, hK⟩ := moreParameters_complete rest (Or.inl hp)
      obtain rfl := Option.some.inj hr
      exact ⟨hd, _, congrArg (Option.map _) hys, hK⟩
    | @moreParameters x t xs hx ht hxs =>
      obtain ⟨_, lit⟩ := x
      obtain rfl := hx
      obtain ⟨hd, ⟨ys, hys⟩, hK⟩ := moreParameters_complete (t :: (xs ++ rest))
        (Or.inr ⟨t, _, rfl, ht, xs, rest, rfl, hxs, hp⟩)
      obtain rfl := Option.some.inj hr
      exact ⟨hd, _, congrArg (Option.map _) hys, hK⟩

/-! ## What each function leaves -/

/-- On tokens that the grammar allows, each function reports nothing and leaves tokens that the grammar
allows next. -/
structure CompleteAt (fuel : Nat) : Prop where
  expression : ∀ {K : List Token → Prop} place ts, Steady K → Then .expr (After K) ts →
    Cleanly (expression fuel place) ts fun _ rest =>
      After K rest ∧ (kindAhead rest).binding ≤ place
  expressionFrom : ∀ {K : List Token → Prop} place t ts, Steady K → Leads (After K) (t :: ts) →
    Cleanly (expressionFrom fuel place t) ts fun _ rest =>
      After K rest ∧ (kindAhead rest).binding ≤ place
  operand : ∀ {K : List Token → Prop} t form ts, Steady K → Leads (After K) (t :: ts) →
    t.kind.operandForm? = some form →
    Cleanly (operand fuel t form) ts fun _ rest => After K rest
  operators : ∀ {K : List Token → Prop} place left ts, Steady K → After K ts →
    Cleanly (operators fuel place left) ts fun _ rest =>
      After K rest ∧ (kindAhead rest).binding ≤ place
  callFrom : ∀ {K : List Token → Prop} t callee ts,
    Then .arguments (Tok .closeParen K) ts →
    Cleanly (callFrom fuel t callee) ts fun _ rest => K rest
  moreArguments : ∀ {K : List Token → Prop} ts, AfterArgument (Tok .closeParen K) ts →
    Cleanly (moreArguments fuel) ts fun _ rest => Tok .closeParen K rest
  blockFrom : ∀ {K : List Token → Prop} brace ts, Then .stmts (Tok .closeBrace K) ts →
    Cleanly (blockFrom fuel brace) ts fun _ rest => K rest
  statementsToBrace : ∀ {K : List Token → Prop} ts, Then .stmts (Tok .closeBrace K) ts →
    Cleanly (statementsToBrace fuel) ts fun _ rest => K rest
  statementFrom : ∀ {E : List Token → Prop} t ts, Ends E → StmtLeads E (t :: ts) →
    Cleanly (statementFrom fuel t) ts fun _ rest => Then .stmts E rest

variable {fuel : Nat} {K : List Token → Prop}

/-- In the place that nothing binds an expression is read to its end. -/
theorem CompleteAt.whole (ih : CompleteAt fuel) (ts : List Token) (hK : Steady K)
    (h : Then .expr K ts) :
    Cleanly (Parser.expression fuel Binding.lowest) ts fun _ rest => K rest :=
  (ih.expression Binding.lowest ts hK (h.mono fun _ => .stop)).mono fun _ _ h =>
    h.1.settled hK h.2

/-- A block is its opening brace, and what the statements to the closing one may be. -/
theorem cleanly_block (ih : CompleteAt fuel) {α : Type} {o : α} {next : Block → Parser α}
    {Q : α → List Token → Prop} {ts : List Token} (h : Then .block K ts)
    (hnext : ∀ b rest, K rest → Cleanly (next b) rest Q) :
    Cleanly (expecting .openBrace o fun brace => blockFrom fuel brace >>= next) ts Q := by
  obtain ⟨b, rest, rfl, hb, hr⟩ := h
  cases hb with
  | @block brace close ss ho hss hc =>
    refine cleanly_expecting ho ?_
    have h : Then .stmts (Tok .closeBrace K) (ss ++ [close] ++ rest) :=
      ⟨ss, close :: rest, by simp, hss, close, rest, rfl, hc, hr⟩
    exact (ih.blockFrom brace _ h).bind hnext

/-! ## One function at a time -/

theorem complete_expression (ih : CompleteAt fuel) (place : Nat) (ts : List Token) (hK : Steady K)
    (h : Then .expr (After K) ts) :
    Cleanly (expression (fuel + 1) place) ts fun _ rest =>
      After K rest ∧ (kindAhead rest).binding ≤ place := by
  have hlead := h.expr_leads
  obtain ⟨t, ts, rfl⟩ := hlead.exists_cons
  exact .of_eq (expression_cons fuel place t ts) (ih.expressionFrom place t ts hK hlead)

theorem complete_expressionFrom (ih : CompleteAt fuel) (place : Nat) (t : Token) (ts : List Token)
    (hK : Steady K) (h : Leads (After K) (t :: ts)) :
    Cleanly (expressionFrom (fuel + 1) place t) ts fun _ rest =>
      After K rest ∧ (kindAhead rest).binding ≤ place := by
  obtain ⟨form, hform⟩ := h.head
  simp only [expressionFrom, hform]
  exact (ih.operand t form ts hK h hform).bind fun left rest hr =>
    ih.operators place left rest hK hr

theorem complete_operand (ih : CompleteAt fuel) (t : Token) (form : OperandForm) (ts : List Token)
    (hK : Steady K) (h : Leads (After K) (t :: ts)) (hform : t.kind.operandForm? = some form) :
    Cleanly (operand (fuel + 1) t form) ts fun _ rest => After K rest := by
  cases h with
  | name ht hr =>
    rw [ht] at hform
    obtain rfl := Option.some.inj hform
    exact cleanly_pure hr
  | number ht hn hr =>
    rw [ht] at hform
    obtain rfl := Option.some.inj hform
    have hint : integer? t.literal = some (Int64.ofNat (digitsValue t.literal)) := by
      simp only [integer?]
      rw [if_pos hn]
    simp only [operand, hint]
    exact cleanly_pure hr
  | truth ht hr =>
    rcases ht with ht | ht <;> rw [ht] at hform <;> obtain rfl := Option.some.inj hform <;>
      exact cleanly_pure hr
  | signed ht h =>
    obtain rfl : form = .signed := by
      generalize t.kind = k at ht hform
      cases k <;> first | exact absurd ht (by decide) | exact (Option.some.inj hform).symm
    exact (ih.expression Binding.sign ts hK h).bind fun e rest hr => cleanly_pure hr.1
  | group ht h =>
    rw [ht] at hform
    obtain rfl := Option.some.inj hform
    refine (ih.whole ts (steady_closeParen _) h).bind fun e rest hr => ?_
    obtain ⟨p, rest, rfl, hp, hr⟩ := hr
    exact cleanly_expecting hp (cleanly_pure hr)
  | conditional ht h =>
    rw [ht] at hform
    obtain rfl := Option.some.inj hform
    obtain ⟨o, ts, rfl, ho, h⟩ := h
    refine cleanly_expecting ho ?_
    refine (ih.whole ts (steady_closeParen _) h).bind fun c rest hr => ?_
    obtain ⟨p, rest, rfl, hp, hr⟩ := hr
    refine cleanly_expecting hp (cleanly_block ih hr fun body rest hr => ?_)
    rcases hr with hr | ⟨kw, rest, rfl, hkw, hr⟩
    · -- no branch follows, and what does follow is not taken for one
      refine cleanly_take?_none ?_ (cleanly_pure hr)
      rintro t rest' rfl
      exact hr.notElse hK
    · exact cleanly_take?_some hkw (cleanly_block ih hr fun other rest hr => cleanly_pure hr)
  | function ht h =>
    rw [ht] at hform
    obtain rfl := Option.some.inj hform
    obtain ⟨o, ts, rfl, ho, h⟩ := h
    refine cleanly_expecting ho ((parameters_complete h).bind fun xs rest hr => ?_)
    obtain ⟨params, rfl, hr⟩ := hr
    exact cleanly_block ih hr fun body rest hr => cleanly_pure hr

theorem complete_operators (ih : CompleteAt fuel) (place : Nat) (left : Expr) (ts : List Token)
    (hK : Steady K) (h : After K ts) :
    Cleanly (operators (fuel + 1) place left) ts fun _ rest =>
      After K rest ∧ (kindAhead rest).binding ≤ place := by
  cases ts with
  | nil =>
    exact .of_eq (operators_nil fuel place left) (cleanly_pure ⟨h, Nat.zero_le _⟩)
  | cons t ts =>
    by_cases hb : place < t.kind.binding
    · -- Something binds here, so the tokens do not start with what follows the expression as a whole:
      -- they go on with an operator or a call, which is then read with the continuation unchanged.
      rcases h.cases hK with ⟨-, h0⟩ | ⟨t', rest, hts, hgo⟩
      · have h0' : t.kind.binding = 0 := h0
        omega
      · obtain ⟨rfl, rfl⟩ := List.cons.inj hts
        rcases hgo with ⟨ht, hgo⟩ | ⟨ht, hgo⟩
        · have hne : t.kind ≠ .openParen := fun he => absurd ht (by rw [he]; decide)
          refine .of_eq (operators_binary fuel place hb hne) ?_
          exact (ih.expression _ ts hK hgo).bind fun right rest hr =>
            ih.operators place _ rest hK hr.1
        · refine .of_eq (operators_call fuel place hb ht) ?_
          exact (ih.callFrom t left ts hgo).bind fun e rest hr => ih.operators place e rest hK hr
    · exact .of_eq (operators_stop fuel place hb) (cleanly_pure ⟨h, Nat.le_of_not_lt hb⟩)

theorem complete_callFrom (ih : CompleteAt fuel) (t : Token) (callee : Expr) (ts : List Token)
    (h : Then .arguments (Tok .closeParen K) ts) :
    Cleanly (callFrom (fuel + 1) t callee) ts fun _ rest => K rest := by
  obtain ⟨args, rest, rfl, hargs, hp⟩ := h
  cases hargs with
  | noArguments =>
    obtain ⟨p, rest, rfl, hp, hr⟩ := hp
    exact cleanly_take?_some hp (cleanly_pure hr)
  | someArguments hargs =>
    have hexpr : Then .expr (AfterArgument (Tok .closeParen K)) (args ++ rest) :=
      argumentList_split ⟨args, rest, rfl, hargs, hp⟩
    refine cleanly_take?_none ?_ ?_
    · intro t rest' hts
      exact (hts ▸ hexpr).expr_head_ne rfl
    · refine (ih.whole _ (steady_afterArgument K) hexpr).bind fun first rest hr => ?_
      refine (ih.moreArguments rest hr).bind fun more rest hr => ?_
      obtain ⟨p, rest, rfl, hp, hr⟩ := hr
      exact cleanly_expecting hp (cleanly_pure hr)

theorem complete_moreArguments (ih : CompleteAt fuel) (ts : List Token)
    (h : AfterArgument (Tok .closeParen K) ts) :
    Cleanly (moreArguments (fuel + 1)) ts fun _ rest => Tok .closeParen K rest := by
  rcases h with h | ⟨c, rest, rfl, hc, h⟩
  · refine cleanly_take?_none ?_ (cleanly_pure h)
    rintro t rest rfl ht
    exact absurd (ht.symm.trans h.kindAhead_eq) (by decide)
  · refine cleanly_take?_some hc ?_
    refine (ih.whole rest (steady_afterArgument K) (argumentList_split h)).bind fun e rest hr => ?_
    exact (ih.moreArguments rest hr).bind fun more rest hr => cleanly_pure hr

theorem complete_blockFrom (ih : CompleteAt fuel) (brace : Token) (ts : List Token)
    (h : Then .stmts (Tok .closeBrace K) ts) :
    Cleanly (blockFrom (fuel + 1) brace) ts fun _ rest => K rest :=
  (ih.statementsToBrace ts h).bind fun _ _ hr => cleanly_pure hr

theorem complete_statementsToBrace (ih : CompleteAt fuel) (ts : List Token)
    (h : Then .stmts (Tok .closeBrace K) ts) :
    Cleanly (statementsToBrace (fuel + 1)) ts fun _ rest => K rest := by
  rcases h.stmts_cases with ⟨c, rest, rfl, hc, hr⟩ | h
  · exact .of_eq (statementsToBrace_close fuel hc) (cleanly_pure hr)
  · have hlead := h.stmt_leads
    obtain ⟨t, ts, rfl⟩ := hlead.exists_cons
    refine .of_eq (statementsToBrace_cons fuel hlead.head_ne_closeBrace) ?_
    refine (ih.statementFrom t ts (ends_closeBrace K) hlead).bind fun s rest hr => ?_
    exact (ih.statementsToBrace rest hr).bind fun ss rest hr => cleanly_pure hr

/-- After the expression of a statement: the semicolon is taken if it is there, and then the next statement
starts. -/
theorem cleanly_stmtEnd {E : List Token → Prop} {α : Type} {a : α} {ts : List Token} (hE : Ends E)
    (h : StmtEnd E ts) :
    Cleanly (take? .semicolon >>= fun _ => pure a) ts fun _ rest => Then .stmts E rest := by
  obtain ⟨semi, rest, rfl, hsemi, hr⟩ := h
  cases hsemi with
  | semicolon ht => exact cleanly_take?_some ht (cleanly_pure hr)
  | noSemicolon =>
    refine cleanly_take?_none ?_ (cleanly_pure hr)
    rintro t rest' rfl
    exact (hr.stmts_kindAhead hE).1

theorem complete_statementFrom (ih : CompleteAt fuel) {E : List Token → Prop} (t : Token)
    (ts : List Token) (hE : Ends E) (h : StmtLeads E (t :: ts)) :
    Cleanly (statementFrom (fuel + 1) t) ts fun _ rest => Then .stmts E rest := by
  have hsteady := steady_stmtEnd hE
  cases h with
  | bind hk hn he h =>
    simp only [statementFrom, hk]
    refine cleanly_expecting hn (cleanly_expecting he ?_)
    exact (ih.whole _ hsteady h).bind fun e rest hr => cleanly_stmtEnd hE hr
  | retNothing hk ht h =>
    simp only [statementFrom, hk]
    exact cleanly_take?_some ht (cleanly_pure h)
  | ret hk h =>
    simp only [statementFrom, hk]
    refine cleanly_take?_none ?_ ?_
    · intro t' rest hts
      exact (hts ▸ h).expr_head_ne rfl
    · exact (ih.whole ts hsteady h).bind fun e rest hr => cleanly_stmtEnd hE hr
  | expr h =>
    -- a statement that starts with an operand is neither of the two that start with a keyword
    obtain ⟨form, hform⟩ := h.head
    have hfrom := (ih.expressionFrom Binding.lowest t ts hsteady h).mono fun _ _ hr =>
      hr.1.settled hsteady hr.2
    simp only [statementFrom]
    split
    · next hk => rw [hk] at hform; exact absurd hform (by simp [Token.Kind.operandForm?])
    · next hk => rw [hk] at hform; exact absurd hform (by simp [Token.Kind.operandForm?])
    · exact hfrom.bind fun e rest hr => cleanly_stmtEnd hE hr

/-! ## All functions together -/

theorem completeAt_all : ∀ fuel, CompleteAt fuel := by
  intro fuel
  induction fuel with
  | zero => constructor <;> intros <;> exact cleanly_outOfFuel _ _
  | succ fuel ih =>
    exact ⟨complete_expression ih, complete_expressionFrom ih, complete_operand ih,
      complete_operators ih, complete_callFrom ih, complete_moreArguments ih,
      complete_blockFrom ih, complete_statementsToBrace ih, complete_statementFrom ih⟩

theorem complete_statementsToEnd : ∀ (fuel : Nat) (ts : List Token), Then .stmts (· = []) ts →
    Cleanly (statementsToEnd fuel) ts fun _ _ => True := by
  intro fuel
  induction fuel with
  | zero => intro ts _; exact cleanly_outOfFuel _ _
  | succ fuel ih =>
    intro ts h
    rcases h.stmts_cases with rfl | h
    · exact .of_eq (statementsToEnd_nil fuel) (cleanly_pure trivial)
    · have hlead := h.stmt_leads
      obtain ⟨t, ts, rfl⟩ := hlead.exists_cons
      refine .of_eq (statementsToEnd_cons fuel t ts) ?_
      refine ((completeAt_all fuel).statementFrom t ts ends_nil hlead).bind fun s rest hr => ?_
      exact (ih rest hr).bind fun ss rest _ => cleanly_pure trivial

end LetLang.Parser

namespace LetLang

open Grammar LetLang.Parser

/-- **The parser accepts exactly the grammar**: a text has no diagnostics if and only if its tokens are
derivable as a list of statements. From left to right the accepted tree is one whose text the tokens are;
from right to left the tokens are read as they are met. Either way the fuel has to suffice: a parser that
gave up would report nothing. -/
theorem ofSource_diagnostics_eq_nil_iff (src : Source) :
    (Program.ofSource src).2 = [] ↔ Derives .stmts src.tokens := by
  obtain ⟨⟨p, ds, rest⟩, hr, hparse⟩ := Program.parse_eq src.tokens
  simp only [Program.ofSource, hparse]
  constructor
  · rintro rfl
    exact (sound_statementsToEnd _ _ p rest hr).2.derives
  · intro h
    have hstmts : Then .stmts (· = []) src.tokens := ⟨_, [], (List.append_nil _).symm, h, rfl⟩
    exact (complete_statementsToEnd _ _ hstmts _ hr).1

end LetLang
