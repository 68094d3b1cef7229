import LetLang.Proofs.Grammar

/-!
# Reading the grammar from left to right

A derivation takes an expression apart from the outside in: `a + b * c` is an operator between two
expressions. A reader meets it from the left, as the operand `a` and then *something that may follow an
operand*. This file turns the first view into the second, for token sequences that go on after the
expression: `K` stands for what may come then.

* `Leads K ts`: `ts` starts with an operand and goes on with `K`;
* `After K ts`: `ts` starts with any number of operators and calls, each complete, and goes on with `K`.

The one step of substance is `Derives.leads`: an expression followed by `K` is an operand followed by
`After K`. Since `After (After K)` is `After K`, an expression on the left of an operator hands what stands
on its right over to what may follow it, and no precedence is needed to say so.

The second half is about **where a statement ends**. The semicolon may be missing, and then the next
statement may start with `-` or `(`, which a reader takes for a continuation of the statement before. The
result is a different reading of the same tokens, but never a failure: `stmtEnd_continues`.
-/

set_option autoImplicit false

namespace LetLang.Grammar

open LetLang.Parser (kindAhead)

/-! ## Sequences that go on -/

/-- A phrase, and then `K`. -/
def Then (P : Phrase) (K : List Token → Prop) (ts : List Token) : Prop :=
  ∃ a rest, ts = a ++ rest ∧ Derives P a ∧ K rest

/-- A token of kind `k`, and then `K`. -/
def Tok (k : Token.Kind) (K : List Token → Prop) (ts : List Token) : Prop :=
  ∃ t rest, ts = t :: rest ∧ t.kind = k ∧ K rest

theorem Then.mono {P : Phrase} {K L : List Token → Prop} {ts : List Token} (h : Then P K ts)
    (hKL : ∀ r, K r → L r) : Then P L ts :=
  let ⟨a, rest, hts, ha, hr⟩ := h
  ⟨a, rest, hts, ha, hKL rest hr⟩

theorem Tok.mono {k : Token.Kind} {K L : List Token → Prop} {ts : List Token} (h : Tok k K ts)
    (hKL : ∀ r, K r → L r) : Tok k L ts :=
  let ⟨t, rest, hts, ht, hr⟩ := h
  ⟨t, rest, hts, ht, hKL rest hr⟩

theorem Tok.kindAhead_eq {k : Token.Kind} {K : List Token → Prop} {ts : List Token}
    (h : Tok k K ts) : kindAhead ts = k := by
  obtain ⟨t, rest, rfl, ht, -⟩ := h
  exact ht

/-- Operators and calls, each with all that belongs to it, and then `K`. -/
inductive After (K : List Token → Prop) : List Token → Prop where
  | stop {ts : List Token} : K ts → After K ts
  | operator {t : Token} {e rest : List Token} : t.kind.isInfix = true → Derives .expr e →
      After K rest → After K (t :: (e ++ rest))
  | call {o p : Token} {args rest : List Token} : o.kind = .openParen → Derives .arguments args →
      p.kind = .closeParen → After K rest → After K (o :: (args ++ p :: rest))

theorem After.flatten {K : List Token → Prop} {ts : List Token} (h : After (After K) ts) :
    After K ts := by
  induction h with
  | stop hK => exact hK
  | operator ht he _ ih => exact .operator ht he ih
  | call ho ha hp _ ih => exact .call ho ha hp ih

/-- What may follow the first branch of a conditional, when `K` may follow the whole. -/
def AfterBranch (K : List Token → Prop) (ts : List Token) : Prop :=
  K ts ∨ Tok .kwElse (Then .block K) ts

/-- An operand, told by its first token, and then `K`. -/
inductive Leads (K : List Token → Prop) : List Token → Prop where
  | name {t : Token} {ts : List Token} : t.kind = .ident → K ts → Leads K (t :: ts)
  | number {t : Token} {ts : List Token} : t.kind = .int →
      digitsValue t.literal ≤ maxInteger → K ts → Leads K (t :: ts)
  | truth {t : Token} {ts : List Token} : t.kind = .kwTrue ∨ t.kind = .kwFalse → K ts →
      Leads K (t :: ts)
  | signed {t : Token} {ts : List Token} : t.kind.isSign = true → Then .expr K ts →
      Leads K (t :: ts)
  | group {t : Token} {ts : List Token} : t.kind = .openParen →
      Then .expr (Tok .closeParen K) ts → Leads K (t :: ts)
  | conditional {t : Token} {ts : List Token} : t.kind = .kwIf →
      Tok .openParen (Then .expr (Tok .closeParen (Then .block (AfterBranch K)))) ts →
      Leads K (t :: ts)
  | function {t : Token} {ts : List Token} : t.kind = .kwFn →
      Tok .openParen (Then .parameters (Tok .closeParen (Then .block K))) ts → Leads K (t :: ts)

theorem AfterBranch.mono {K L : List Token → Prop} {ts : List Token} (h : AfterBranch K ts)
    (hKL : ∀ r, K r → L r) : AfterBranch L ts :=
  h.imp (hKL ts) fun h => h.mono fun _ h => h.mono hKL

theorem Leads.mono {K L : List Token → Prop} {ts : List Token} (h : Leads K ts)
    (hKL : ∀ r, K r → L r) : Leads L ts := by
  cases h with
  | name ht hK => exact .name ht (hKL _ hK)
  | number ht hn hK => exact .number ht hn (hKL _ hK)
  | truth ht hK => exact .truth ht (hKL _ hK)
  | signed ht h => exact .signed ht (h.mono hKL)
  | group ht h => exact .group ht (h.mono fun _ h => h.mono hKL)
  | conditional ht h =>
    exact .conditional ht (h.mono fun _ h => h.mono fun _ h => h.mono fun _ h =>
      h.mono fun _ h => h.mono hKL)
  | function ht h =>
    exact .function ht (h.mono fun _ h => h.mono fun _ h => h.mono fun _ h => h.mono hKL)

/-- **An expression is an operand and what may follow one.** Induction over the derivation, for every
continuation at once: the left operand of an operator is followed by the operator, so its continuation is
not the one of the whole. -/
theorem Derives.leads {e : List Token} (h : Derives .expr e) :
    ∀ {K : List Token → Prop} {rest : List Token}, K rest → Leads (After K) (e ++ rest) := by
  generalize hP : Phrase.expr = P at h
  induction h with
  | name ht => intro K rest hK; exact .name ht (.stop hK)
  | number ht hn => intro K rest hK; exact .number ht hn (.stop hK)
  | truth ht => intro K rest hK; exact .truth ht (.stop hK)
  | unary ht he => intro K rest hK; exact .signed ht ⟨_, rest, rfl, he, .stop hK⟩
  | @binary l r t _ ht hr ihl =>
    intro K rest hK
    -- what follows the left operand is the operator with all that follows the whole
    have hl : Leads (After (After K)) (l ++ t :: (r ++ rest)) :=
      ihl rfl (.operator ht hr (.stop hK))
    rw [List.append_assoc]
    exact hl.mono fun _ => After.flatten
  | @call o p f args _ ho ha hp ihf =>
    intro K rest hK
    have hf : Leads (After (After K)) (f ++ o :: (args ++ p :: rest)) :=
      ihf rfl (.call ho ha hp (.stop hK))
    rw [show f ++ o :: (args ++ [p]) ++ rest = f ++ o :: (args ++ p :: rest) by simp]
    exact hf.mono fun _ => After.flatten
  | group ho he hc =>
    intro K rest hK
    exact .group ho ⟨_, _, by simp, he, _, rest, rfl, hc, .stop hK⟩
  | ifThen hk ho hc hp hb =>
    intro K rest hK
    exact .conditional hk ⟨_, _, rfl, ho, _, _, by simp, hc, _, _, rfl, hp, _, rest, rfl, hb,
      Or.inl (.stop hK)⟩
  | ifElse hk ho hc hp hb hk' hb' =>
    intro K rest hK
    exact .conditional hk ⟨_, _, rfl, ho, _, _, by simp, hc, _, _, rfl, hp, _, _, rfl, hb,
      Or.inr ⟨_, _, rfl, hk', _, rest, rfl, hb', .stop hK⟩⟩
  | fn hk ho hx hp hb =>
    intro K rest hK
    exact .function hk ⟨_, _, rfl, ho, _, _, by simp, hx, _, _, rfl, hp, _, rest, rfl, hb,
      .stop hK⟩
  | _ => cases hP

/-- The first token of an operand is one that can start it. -/
theorem Leads.head {K : List Token → Prop} {t : Token} {ts : List Token} (h : Leads K (t :: ts)) :
    ∃ form, t.kind.operandForm? = some form := by
  cases h with
  | name ht | number ht | group ht | conditional ht | function ht => rw [ht]; exact ⟨_, rfl⟩
  | truth ht => rcases ht with ht | ht <;> rw [ht] <;> exact ⟨_, rfl⟩
  | signed ht =>
    generalize t.kind = k at ht
    cases k <;> first | exact ⟨_, rfl⟩ | exact absurd ht (by decide)

theorem Leads.exists_cons {K : List Token → Prop} {ts : List Token} (h : Leads K ts) :
    ∃ t rest, ts = t :: rest := by
  cases h <;> exact ⟨_, _, rfl⟩

/-- Every expression starts with the first token of an operand. -/
theorem Then.expr_leads {K : List Token → Prop} {ts : List Token} (h : Then .expr (After K) ts) :
    Leads (After K) ts := by
  obtain ⟨e, rest, rfl, he, hr⟩ := h
  exact (he.leads hr).mono fun _ => After.flatten

theorem Then.expr_head_ne {K : List Token → Prop} {t : Token} {ts : List Token} {k : Token.Kind}
    (h : Then .expr K (t :: ts)) (hk : k.operandForm? = none) : t.kind ≠ k := by
  rintro rfl
  obtain ⟨form, hform⟩ := (h.mono fun _ => After.stop).expr_leads.head
  exact absurd (hform.symm.trans hk) (by simp)

/-! ## What may follow an expression

Nothing that may follow an expression as a whole can be mistaken for part of it, with one exception: where
the next statement follows at once. There the mistake is harmless. -/

/-- `ts` goes on with an operator or a call, and later with `K`. -/
def Continues (K : List Token → Prop) (ts : List Token) : Prop :=
  ∃ t rest, ts = t :: rest ∧ ((t.kind.isInfix = true ∧ Then .expr (After K) rest) ∨
    (t.kind = .openParen ∧ Then .arguments (Tok .closeParen (After K)) rest))

/-- What a reader of expressions needs to know of the continuation: where it starts with an operator it can
be read on, and it does not start with `else`, which would be taken for a branch. -/
structure Steady (K : List Token → Prop) : Prop where
  continues : ∀ {ts}, K ts → 0 < (kindAhead ts).binding → Continues K ts
  notElse : ∀ {ts}, K ts → kindAhead ts ≠ .kwElse

/-- The delimiters that can end an expression bind nothing. -/
theorem steady_of_kindAhead {K : List Token → Prop} (ks : List Token.Kind)
    (hks : ∀ k ∈ ks, k.binding = 0 ∧ k ≠ .kwElse) (h : ∀ {ts}, K ts → kindAhead ts ∈ ks) :
    Steady K where
  continues hK hb := absurd (hks _ (h hK)).1 (by omega)
  notElse hK := (hks _ (h hK)).2

theorem steady_closeParen (K : List Token → Prop) : Steady (Tok .closeParen K) :=
  steady_of_kindAhead [.closeParen] (by simp; decide) fun h => by simp [h.kindAhead_eq]

theorem After.cases {K : List Token → Prop} {ts : List Token} (hK : Steady K) (h : After K ts) :
    (K ts ∧ (kindAhead ts).binding = 0) ∨ Continues K ts := by
  cases h with
  | stop h =>
    by_cases hb : 0 < (kindAhead ts).binding
    · exact Or.inr (hK.continues h hb)
    · exact Or.inl ⟨h, by omega⟩
  | operator ht he hr => exact Or.inr ⟨_, _, rfl, Or.inl ⟨ht, _, _, rfl, he, hr⟩⟩
  | call ho ha hp hr => exact Or.inr ⟨_, _, rfl, Or.inr ⟨ho, _, _, rfl, ha, _, _, rfl, hp, hr⟩⟩

theorem Continues.binding_pos {K : List Token → Prop} {ts : List Token} (h : Continues K ts) :
    0 < (kindAhead ts).binding := by
  obtain ⟨t, rest, rfl, ⟨ht, -⟩ | ⟨ht, -⟩⟩ := h
  · show 0 < t.kind.binding
    generalize t.kind = k at ht
    cases k <;> first | decide | exact absurd ht (by decide)
  · show 0 < t.kind.binding
    rw [ht]
    decide

/-- Where nothing binds, what may follow the expression begins. -/
theorem After.settled {K : List Token → Prop} {ts : List Token} (hK : Steady K) (h : After K ts)
    (hb : (kindAhead ts).binding ≤ 0) : K ts := by
  rcases h.cases hK with h | h
  · exact h.1
  · exact absurd h.binding_pos (by omega)

theorem After.notElse {K : List Token → Prop} {ts : List Token} (hK : Steady K) (h : After K ts) :
    kindAhead ts ≠ .kwElse := by
  rcases h.cases hK with h | h
  · exact hK.notElse h.1
  · intro he
    exact absurd h.binding_pos (by rw [he]; decide)

/-! ## Where a statement ends -/

/-- What ends a list of statements: a closing brace, or the end of the tokens. -/
def Ends (E : List Token → Prop) : Prop :=
  ∀ {ts}, E ts → kindAhead ts = .closeBrace ∨ kindAhead ts = .endOfInput

theorem ends_closeBrace (K : List Token → Prop) : Ends (Tok .closeBrace K) :=
  fun h => Or.inl h.kindAhead_eq

theorem ends_nil : Ends (· = []) := by
  rintro ts rfl
  exact Or.inr rfl

/-- What may follow the expression of a statement: its semicolon if there is one, the other statements,
the end. -/
def StmtEnd (E : List Token → Prop) : List Token → Prop :=
  Then .semicolon? (Then .stmts E)

/-- The statements of a list, one by one. -/
theorem Then.stmts_cases {E : List Token → Prop} {ts : List Token} (h : Then .stmts E ts) :
    E ts ∨ Then .stmt (Then .stmts E) ts := by
  obtain ⟨ss, rest, rfl, hss, hE⟩ := h
  cases hss with
  | noStmts => exact Or.inl hE
  | moreStmts hs hss => exact Or.inr ⟨_, _, List.append_assoc _ _ _, hs, _, _, rfl, hss, hE⟩

/-- A statement, told by its first token. -/
inductive StmtLeads (E : List Token → Prop) : List Token → Prop where
  | bind {kw name eq : Token} {ts : List Token} : kw.kind = .kwLet → name.kind = .ident →
      eq.kind = .assign → Then .expr (StmtEnd E) ts → StmtLeads E (kw :: name :: eq :: ts)
  | retNothing {kw t : Token} {ts : List Token} : kw.kind = .kwReturn → t.kind = .semicolon →
      Then .stmts E ts → StmtLeads E (kw :: t :: ts)
  | ret {kw : Token} {ts : List Token} : kw.kind = .kwReturn → Then .expr (StmtEnd E) ts →
      StmtLeads E (kw :: ts)
  | expr {ts : List Token} : Leads (After (StmtEnd E)) ts → StmtLeads E ts

theorem Then.stmt_leads {E : List Token → Prop} {ts : List Token}
    (h : Then .stmt (Then .stmts E) ts) : StmtLeads E ts := by
  obtain ⟨s, rest, rfl, hs, hr⟩ := h
  cases hs with
  | bind hk hn he hexpr hsemi =>
    exact .bind hk hn he ⟨_, _, List.append_assoc _ _ _, hexpr, _, _, rfl, hsemi, hr⟩
  | retNothing hk ht => exact .retNothing hk ht hr
  | ret hk hexpr hsemi =>
    exact .ret hk ⟨_, _, List.append_assoc _ _ _, hexpr, _, _, rfl, hsemi, hr⟩
  | exprStmt hexpr hsemi =>
    rw [List.append_assoc]
    exact .expr (hexpr.leads ⟨_, _, rfl, hsemi, hr⟩)

/-- The first token of a statement. -/
theorem StmtLeads.head {E : List Token → Prop} {ts : List Token} (h : StmtLeads E ts) :
    kindAhead ts = .kwLet ∨ kindAhead ts = .kwReturn ∨
      ∃ form, (kindAhead ts).operandForm? = some form := by
  cases h with
  | bind hk => exact Or.inl hk
  | retNothing hk | ret hk => exact Or.inr (Or.inl hk)
  | expr h =>
    obtain ⟨t, rest, rfl⟩ := h.exists_cons
    exact Or.inr (Or.inr h.head)

theorem StmtLeads.exists_cons {E : List Token → Prop} {ts : List Token} (h : StmtLeads E ts) :
    ∃ t rest, ts = t :: rest := by
  cases h with
  | expr h => exact h.exists_cons
  | _ => exact ⟨_, _, rfl⟩

theorem StmtLeads.head_ne_closeBrace {E : List Token → Prop} {t : Token} {ts : List Token}
    (h : StmtLeads E (t :: ts)) : t.kind ≠ .closeBrace := by
  intro hk
  rcases h.head with h | h | ⟨form, h⟩ <;> rw [show kindAhead (t :: ts) = _ from hk] at h <;>
    exact absurd h (by simp [Token.Kind.operandForm?])

/-- Neither a statement nor the end of the statements starts with any of these. -/
theorem Then.stmts_kindAhead {E : List Token → Prop} {ts : List Token} (hE : Ends E)
    (h : Then .stmts E ts) : kindAhead ts ≠ .semicolon ∧ kindAhead ts ≠ .kwElse := by
  rcases h.stmts_cases with h | h
  · rcases hE h with h | h <;> rw [h] <;> decide
  · rcases h.stmt_leads.head with h | h | ⟨form, h⟩
    · rw [h]; decide
    · rw [h]; decide
    · constructor <;> intro hk <;> rw [hk] at h <;> exact absurd h (by simp [Token.Kind.operandForm?])

/-- **A statement that is read on into the next one can be.** The next one then starts with a sign, which
is an operator too, or with a parenthesis, and a group is a list of one argument. -/
theorem stmtEnd_continues {E : List Token → Prop} {ts : List Token} (hE : Ends E)
    (h : StmtEnd E ts) (hb : 0 < (kindAhead ts).binding) : Continues (StmtEnd E) ts := by
  -- most tokens that can stand here bind nothing, against the hypothesis
  have hnone : ∀ k, kindAhead ts = k → k.binding = 0 → Continues (StmtEnd E) ts := by
    rintro k rfl h0
    exact absurd hb (by omega)
  obtain ⟨semi, rest, rfl, hsemi, hr⟩ := h
  cases hsemi with
  | semicolon ht => exact hnone _ ht rfl
  | noSemicolon =>
    rcases hr.stmts_cases with hend | hstmt
    · rcases hE hend with hk | hk <;> exact hnone _ hk rfl
    · cases hstmt.stmt_leads with
      | bind hk | retNothing hk | ret hk => exact hnone _ hk rfl
      | expr hlead =>
        cases hlead with
        | name ht | number ht | conditional ht | function ht => exact hnone _ ht rfl
        | truth ht => rcases ht with ht | ht <;> exact hnone _ ht rfl
        | @signed t ts ht he =>
          -- of the two signs only the minus binds, and it is an operator too
          refine ⟨t, ts, rfl, Or.inl ⟨?_, he⟩⟩
          have hbt : 0 < t.kind.binding := hb
          generalize t.kind = k at ht hbt
          cases k <;> first | rfl | exact absurd ht (by decide) | exact absurd hbt (by decide)
        | @group t ts ht hgroup =>
          -- the group is read as the arguments of a call
          obtain ⟨e, rest, rfl, he, hclose⟩ := hgroup
          exact ⟨t, _, rfl, Or.inr ⟨ht, e, rest, rfl, .someArguments (.oneArgument he), hclose⟩⟩

theorem steady_stmtEnd {E : List Token → Prop} (hE : Ends E) : Steady (StmtEnd E) where
  continues := stmtEnd_continues hE
  notElse := by
    rintro ts ⟨semi, rest, rfl, hsemi, hr⟩
    cases hsemi with
    | semicolon ht => show Token.kind _ ≠ _; rw [ht]; decide
    | noSemicolon => exact (hr.stmts_kindAhead hE).2

end LetLang.Grammar
