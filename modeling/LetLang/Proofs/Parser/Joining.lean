import LetLang.Proofs.Parser.Lookahead
import LetLang.Proofs.Token.Separation

/-!
# Texts one after the other

A statement may leave out its semicolon, so in general what follows a program can become part of its last statement:
`a` and `-b` are two programs, and `a -b` is one statement. After a semicolon this cannot happen. The semicolon is
the token that ended the expression, so it is still the next token when something follows it, and one token is as far
as the parser looks ahead. Programs that end in a semicolon can therefore be put one after the other, and the result is
read as what each of them is read as (`Program.parse_append`). What comes last may be anything: it is read, and reported
about, as if nothing stood before it (`Program.ofSource_line_append`).
-/

set_option autoImplicit false

namespace LetLang

open Grammar LetLang.Parser

/-! ## The last token -/

/-- The last token is a semicolon. -/
def EndInSemicolon (ts : List Token) : Prop := ts.getLast?.map Token.kind = some .semicolon

theorem endInSemicolon_append {a b : List Token} (hb : b ≠ []) :
    EndInSemicolon (a ++ b) ↔ EndInSemicolon b := by
  simp only [EndInSemicolon, List.getLast?_append, List.getLast?_eq_some_getLast hb, Option.some_or]

theorem endInSemicolon_singleton {t : Token} : EndInSemicolon [t] ↔ t.kind = .semicolon := by
  simp [EndInSemicolon]

theorem EndInSemicolon.ne_nil {ts : List Token} (h : EndInSemicolon ts) : ts ≠ [] := by
  rintro rfl
  exact absurd h (by simp [EndInSemicolon])

theorem EndInSemicolon.tail {t : Token} {ts : List Token} (h : EndInSemicolon (t :: ts))
    (ht : t.kind ≠ .semicolon) : EndInSemicolon ts := by
  cases ts with
  | nil => exact absurd (endInSemicolon_singleton.mp h) ht
  | cons u ts => exact (endInSemicolon_append (a := [t]) (by simp)).mp h

namespace Grammar

/-- There is a last token, and it is not a semicolon. -/
def Closed (ts : List Token) : Prop := ∃ a t, ts = a ++ [t] ∧ t.kind ≠ .semicolon

theorem Closed.append {b : List Token} (h : Closed b) (a : List Token) : Closed (a ++ b) := by
  obtain ⟨c, t, rfl, ht⟩ := h
  exact ⟨a ++ c, t, (List.append_assoc _ _ _).symm, ht⟩

theorem closed_of_kind {t : Token} {k : Token.Kind} (a : List Token) (ht : t.kind = k)
    (hk : k ≠ .semicolon) : Closed (a ++ [t]) := ⟨a, t, rfl, ht ▸ hk⟩

theorem Closed.not_endInSemicolon {ts : List Token} (h : Closed ts) : ¬ EndInSemicolon ts := by
  obtain ⟨a, t, rfl, ht⟩ := h
  rw [endInSemicolon_append (by simp), endInSemicolon_singleton]
  exact ht

/-- An expression ends in a name, a number, a truth value or something that closes, and a block in its brace. -/
theorem Derives.closed {P : Phrase} {ts : List Token} (h : Derives P ts)
    (hP : P = .expr ∨ P = .block) : Closed ts := by
  induction h with
  | name ht | number ht _ => exact closed_of_kind [] ht (by decide)
  | truth ht => rcases ht with ht | ht <;> exact closed_of_kind [] ht (by decide)
  | @unary t e _ _ ih => exact (ih hP).append [t]
  | @binary l r t _ _ _ _ ihr => simpa using (ihr hP).append (l ++ [t])
  | @group o c e _ _ hc => exact closed_of_kind (o :: e) hc (by decide)
  | @ifThen kw o p c b _ _ _ _ _ _ ihb =>
    simpa using (ihb (.inr rfl)).append (kw :: o :: (c ++ [p]))
  | @ifElse kw o p kw' c b b' _ _ _ _ _ _ _ _ _ ihb' =>
    simpa using (ihb' (.inr rfl)).append (kw :: o :: (c ++ p :: (b ++ [kw'])))
  | @fn kw o p xs b _ _ _ _ _ _ ihb =>
    simpa using (ihb (.inr rfl)).append (kw :: o :: (xs ++ [p]))
  | @call o p f args _ _ _ hp =>
    simpa using closed_of_kind (f ++ o :: args) hp (by decide)
  | @block o c ss _ _ hc => exact closed_of_kind (o :: ss) hc (by decide)
  | _ => simp at hP

end Grammar

namespace Parser

variable {α : Type}

/-! ## A statement that ends in a semicolon -/

/-- The expression of a statement has ended before the semicolon, so the semicolon was left for `take?`, and it is what
comes after the expression also when there is more. -/
theorem semicolon_append {p : Nat → Parser Expr} {ts : List Token} {V : List Token → Prop} {g : Expr → α}
    {v : α} (hp : Located p ts V)
    (hsound : WhenClean (p 0) ts fun e rest => Reads ts rest (Spells (.expr e)))
    (hend : EndInSemicolon ts)
    (h : (p 0 >>= fun e => take? .semicolon >>= fun _ => pure (g e)) ts = some ⟨v, [], []⟩)
    (us : List Token) :
    (p 0 >>= fun e => take? .semicolon >>= fun _ => pure (g e)) (ts ++ us) = some ⟨v, [], us⟩ := by
  obtain ⟨⟨e, d₁, mid⟩, ⟨w, d₂, rest⟩, he, hsemi, heq⟩ := bind_eq_some.mp h
  obtain ⟨rfl, hd, rfl⟩ := Parsed.mk.inj heq
  obtain ⟨rfl, rfl⟩ := List.append_eq_nil_iff.mp hd.symm
  obtain ⟨a, rfl, hloc⟩ := hp.clean he
  cases mid with
  | nil =>
    -- nothing is left, so the expression itself would have to end in the semicolon
    obtain ⟨b, hb, hspells⟩ := hsound e [] he
    rw [hb, List.append_nil] at hend
    exact absurd hend (hspells.derives.closed (.inl rfl)).not_endInSemicolon
  | cons t mid =>
    simp only at hsemi
    by_cases ht : t.kind = .semicolon
    · rw [take?_bind_of_kind ht] at hsemi
      obtain ⟨rfl, -, rfl⟩ := Parsed.mk.inj (Option.some.inj hsemi)
      rw [List.append_assoc]
      refine bind_eq_some.mpr ⟨_, ⟨g e, [], us⟩, hloc 0 ([t] ++ us) rfl, ?_, rfl⟩
      exact take?_bind_of_kind ht
    · rw [take?_bind_of_ne (by rintro _ _ ⟨rfl, rfl⟩; exact ht)] at hsemi
      obtain ⟨-, -, hnil⟩ := Parsed.mk.inj (Option.some.inj hsemi)
      exact absurd hnil (by simp)

theorem expecting_clean {k : Token.Kind} {o v : α} {next : Token → Parser α} {ts rest : List Token}
    (h : expecting k o next ts = some ⟨v, [], rest⟩) :
    ∃ t us, ts = t :: us ∧ t.kind = k ∧ next t us = some ⟨v, [], rest⟩ := by
  cases ts with
  | nil => exact absurd h (by simp [expecting])
  | cons t us =>
    by_cases hk : t.kind = k
    · rw [expecting_of_kind hk] at h
      exact ⟨t, us, rfl, hk, h⟩
    · exact absurd h (by simp [expecting, hk])

theorem statementFrom_append {fuel : Nat} {t : Token} {ts : List Token} {s : Option Stmt}
    (hend : EndInSemicolon (t :: ts)) (h : statementFrom (0 + fuel) t ts = some ⟨s, [], []⟩)
    (us : List Token) : statementFrom (0 + fuel) t (ts ++ us) = some ⟨s, [], us⟩ := by
  cases fuel with
  | zero => exact absurd h (by simp [statementFrom, outOfFuel])
  | succ fuel =>
    have hlocated := locatedAt_all fuel
    have hsound := soundAt_all (0 + fuel)
    rw [← Nat.add_assoc] at h ⊢
    by_cases hlet : t.kind = .kwLet
    · simp only [statementFrom, hlet] at h ⊢
      obtain ⟨x, ts, rfl, hx, h⟩ := expecting_clean h
      obtain ⟨eq, ts, rfl, he, h⟩ := expecting_clean h
      have hrest : EndInSemicolon ts := by
        refine ((hend.tail ?_).tail ?_).tail ?_
        · simp [hlet]
        · simp [hx]
        · simp [he]
      rw [List.cons_append, expecting_of_kind hx, List.cons_append, expecting_of_kind he]
      exact semicolon_append (hlocated.expression _ ts) (hsound.expression _ ts) hrest h us
    · by_cases hret : t.kind = .kwReturn
      · have hrest : EndInSemicolon ts := hend.tail (by simp [hret])
        simp only [statementFrom, hret] at h ⊢
        cases ts with
        | nil => exact absurd rfl hrest.ne_nil
        | cons t' ts =>
          by_cases ht' : t'.kind = .semicolon
          · rw [take?_bind_of_kind ht'] at h
            obtain ⟨rfl, -, rfl⟩ := Parsed.mk.inj (Option.some.inj h)
            exact take?_bind_of_kind ht'
          · have hne (us : List Token) : ∀ u rest, t' :: us = u :: rest → u.kind ≠ .semicolon := by
              rintro _ _ ⟨rfl, rfl⟩
              exact ht'
            rw [take?_bind_of_ne (hne ts)] at h
            rw [List.cons_append, take?_bind_of_ne (hne _)]
            exact semicolon_append (hlocated.expression _ _) (hsound.expression _ _) hrest h us
      · have hstart := whenClean_starting (f := expressionFrom (0 + fuel) Binding.lowest)
          (P := fun e a => Spells (.expr e) a) (hsound.expressionFrom Binding.lowest t ts)
        have happend := semicolon_append (g := fun e => some (.expr t e))
          (hlocated.expressionFrom Binding.lowest t ts) hstart hend (v := s)
        simp only [statementFrom] at h ⊢
        exact happend h us

end Parser

/-! ## Programs -/

/-- **A program that ends in a semicolon is read the same whatever follows it**, and what follows it is read as if it
stood alone. -/
theorem Program.parse_append {ts : List Token} (hclean : (Program.parse ts).2 = [])
    (hend : EndInSemicolon ts) (us : List Token) :
    Program.parse (ts ++ us) = ((Program.parse ts).1 ++ (Program.parse us).1, (Program.parse us).2) := by
  -- on the number of tokens, one statement at a time
  induction hn : ts.length using Nat.strongRecOn generalizing ts with
  | _ n ih =>
    subst hn
    cases ts with
    | nil => exact absurd rfl hend.ne_nil
    | cons t ts =>
      obtain ⟨fuel, ⟨s, ds, rest⟩, hs, hle⟩ := Program.exists_statementFrom t ts
      have hparse := Program.parse_of_statementFrom hs
      rw [hparse] at hclean ⊢
      obtain ⟨rfl, hrest⟩ := List.append_eq_nil_iff.mp hclean
      rw [← Nat.zero_add fuel] at hs
      cases rest with
      | nil =>
        rw [List.cons_append, Program.parse_of_statementFrom (statementFrom_append hend hs us), Program.parse_nil]
        simp
      | cons u rest =>
        obtain ⟨a, hts, hloc⟩ := ((locatedAt_all fuel).statementFrom t ts).clean hs
        have hend' : EndInSemicolon (u :: rest) := by
          rw [hts] at hend
          exact (endInSemicolon_append (by simp)).mp hend
        have hnext : statementFrom (0 + fuel) t (ts ++ us) = some ⟨s, [], u :: rest ++ us⟩ := by
          have h := hloc 0 (u :: rest ++ us) rfl
          rwa [← List.append_assoc, ← hts] at h
        rw [List.cons_append, Program.parse_of_statementFrom hnext,
          ih _ (Nat.lt_succ_of_le hle) hrest hend' rfl, List.append_assoc]
        rfl

/-! ## Texts -/

/-- A text that reads as a program by itself and leaves nothing open: no diagnostics, and a semicolon at its end. A zero
byte would hide what comes after it. -/
structure Source.Complete (src : Source) : Prop where
  noZero : 0 ∉ src
  clean : (Program.ofSource src).2 = []
  closed : EndInSemicolon src.tokens

theorem Source.Complete.program_ne_nil {src : Source} (h : src.Complete) :
    (Program.ofSource src).1 ≠ [] := by
  obtain ⟨⟨p, ds, rest⟩, hr, hparse⟩ := Program.parse_eq src.tokens
  have hclean := h.clean
  simp only [Program.ofSource, hparse] at hclean ⊢
  subst hclean
  rintro rfl
  -- the only text of no statements has no tokens
  have hspells := (sound_statementsToEnd _ _ [] rest hr).2
  generalize hts : src.tokens = ts at hspells
  cases hspells
  exact h.closed.ne_nil hts

/-- What stands after a complete text is read as if it stood alone. -/
theorem Program.ofSource_append {src : Source} (h : src.Complete) {w : UInt8} (hw : Source.isBlank w = true)
    (more : Source) :
    Program.ofSource (src ++ w :: more) =
      ((Program.ofSource src).1 ++ (Program.ofSource more).1, (Program.ofSource more).2) := by
  simp only [Program.ofSource]
  rw [Source.tokens_append_blank hw more h.noZero, Program.parse_append h.clean h.closed]

/-- The texts, each on lines of its own. -/
def Source.joined (srcs : List Source) : Source := List.intercalate [10] srcs

theorem Source.joined_cons (src src' : Source) (srcs : List Source) :
    joined (src :: src' :: srcs) = src ++ 10 :: joined (src' :: srcs) := by
  simp [joined, List.intercalate]

/-- Texts that are complete can be read one by one. -/
theorem Program.ofSource_joined : ∀ {srcs : List Source}, (∀ src ∈ srcs, src.Complete) → srcs ≠ [] →
    Program.ofSource (.joined srcs) = (srcs.flatMap fun src => (Program.ofSource src).1, []) := by
  intro srcs
  induction srcs with
  | nil => exact fun _ hne => absurd rfl hne
  | cons src srcs ih =>
    intro h _
    have hsrc := h src List.mem_cons_self
    cases srcs with
    | nil =>
      have hjoined : Source.joined [src] = src := by simp [Source.joined, List.intercalate]
      rw [hjoined]
      exact Prod.ext (by simp) hsrc.clean
    | cons src' srcs =>
      have hrest := ih (fun x hx => h x (List.mem_cons_of_mem _ hx)) (by simp)
      rw [Source.joined_cons, Program.ofSource_append hsrc (by decide), hrest]
      rfl

/-- **A text in two parts is read part by part.** The first part is without diagnostics and ends in a semicolon, or has no
tokens at all; the second can be anything, and all that is reported is about it. -/
theorem Program.ofSource_line_append {a : Source} (h0 : 0 ∉ a) (hclean : (Program.ofSource a).2 = [])
    (hend : a.tokens = [] ∨ a.tokens.getLast?.map Token.kind = some .semicolon) (b : Source) :
    Program.ofSource (a ++ [10] ++ b) =
      ((Program.ofSource a).1 ++ (Program.ofSource b).1, (Program.ofSource b).2) := by
  rw [List.append_assoc, List.singleton_append]
  rcases hend with hnil | hsemicolon
  · have ha : Program.ofSource a = ([], []) := by rw [Program.ofSource, hnil, Program.parse_nil]
    have htokens : (a ++ 10 :: b).tokens = b.tokens := by
      rw [Source.tokens_append_blank (by decide) b h0, hnil, List.nil_append]
    rw [Program.ofSource, htokens, ha, List.nil_append]
    rfl
  · exact Program.ofSource_append ⟨h0, hclean, hsemicolon⟩ (by decide) b

/-- The second part starts with what could go on with the first, and is no program itself. -/
theorem Program.ofSource_line_append_minus :
    (Program.ofSource (Source.ofString "let f = g;")).2 = [] ∧
      (Source.ofString "let f = g;").tokens.getLast?.map Token.kind = some .semicolon ∧
      (Program.ofSource (Source.ofString "let f = g;" ++ [10] ++ Source.ofString "-1; let x 2")).1.length = 3 ∧
      (Program.ofSource (Source.ofString "let f = g;" ++ [10] ++ Source.ofString "-1; let x 2")).2 =
        [.expected .assign .int] := by
  have hclean : (Program.ofSource (Source.ofString "let f = g;")).2 = [] := by decide +kernel
  have hend : (Source.ofString "let f = g;").tokens.getLast?.map Token.kind = some .semicolon := by decide +kernel
  have h := Program.ofSource_line_append (by decide +kernel) hclean (.inr hend) (Source.ofString "-1; let x 2")
  refine ⟨hclean, hend, ?_, ?_⟩
  · rw [h, List.length_append]
    decide +kernel
  · rw [h]
    decide +kernel

end LetLang
