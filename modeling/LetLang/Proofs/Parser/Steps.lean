import LetLang.Tree.Parser

/-!
# Reasoning about parsing steps

Three judgments about a parsing step. They differ in what they say of a result, and none of them speaks
about fuel except the first:

* `Halts p ts`: the step gives a result, and what it leaves is no longer than what it was given;
* `WhenClean p ts Q`: *if* the result carries no diagnostic, then `Q` holds of it;
* `Cleanly p ts Q`: every result carries no diagnostic, *and* `Q` holds of it.

`WhenClean` is for what an accepted text must look like, `Cleanly` for which texts are accepted. Both
have one rule for every way in which steps are put together. In the first a step that reports something
owes nothing, so the rules for failing branches are all trivial; in the second every token a step expects
has to be shown to stand there. Together with `Halts` they decide whether a text is accepted: neither of
the other two excludes that the fuel runs out.
-/

set_option autoImplicit false

namespace LetLang.Parser

variable {α β : Type}

/-! ## Steps, opened -/

theorem bind_eq_some {p : Parser α} {f : α → Parser β} {ts : List Token} {r : Parsed β} :
    (p >>= f) ts = some r ↔ ∃ a b, p ts = some a ∧ f a.value a.rest = some b ∧
      r = ⟨b.value, a.diagnostics ++ b.diagnostics, b.rest⟩ := by
  show Parser.bind p f ts = some r ↔ _
  unfold Parser.bind
  cases hp : p ts with
  | none => simp
  | some a =>
    cases hf : f a.value a.rest with
    | none => simp [hf]
    | some b => simp [hf, eq_comm]

/-- Looking ahead changes nothing, so what follows it runs on the same tokens. -/
theorem peek?_bind (f : Option Token → Parser β) (ts : List Token) :
    (peek? >>= f) ts = f ts.head? ts := by
  show Parser.bind peek? f ts = _
  simp only [Parser.bind, peek?]
  cases f ts.head? ts <;> rfl

theorem token?_bind_nil (f : Option Token → Parser β) : (token? >>= f) [] = f none [] := by
  show Parser.bind token? f [] = _
  simp only [Parser.bind, token?]
  cases f none [] <;> rfl

theorem token?_bind_cons (f : Option Token → Parser β) (t : Token) (ts : List Token) :
    (token? >>= f) (t :: ts) = f (some t) ts := by
  show Parser.bind token? f (t :: ts) = _
  simp only [Parser.bind, token?]
  cases f (some t) ts <;> rfl

/-- Taking a token of a given kind has two outcomes, and neither reports anything. -/
theorem take?_cases (k : Token.Kind) (ts : List Token) :
    (∃ t rest, ts = t :: rest ∧ t.kind = k ∧ take? k ts = some ⟨some t, [], rest⟩) ∨
      ((∀ t rest, ts = t :: rest → t.kind ≠ k) ∧ take? k ts = some ⟨none, [], ts⟩) := by
  cases ts with
  | nil => exact Or.inr ⟨fun _ _ h => absurd h (by simp), rfl⟩
  | cons t rest =>
    by_cases hk : t.kind = k
    · exact Or.inl ⟨t, rest, rfl, hk, by simp [take?, hk]⟩
    · refine Or.inr ⟨fun t' rest' h => ?_, by simp [take?, hk]⟩
      obtain ⟨rfl, -⟩ := List.cons.inj h
      exact hk

theorem take?_bind_of_kind {k : Token.Kind} {f : Option Token → Parser β} {t : Token}
    {ts : List Token} (hk : t.kind = k) : (take? k >>= f) (t :: ts) = f (some t) ts := by
  show Parser.bind (take? k) f (t :: ts) = _
  simp only [Parser.bind, take?, if_pos hk]
  cases f (some t) ts <;> rfl

theorem take?_bind_of_ne {k : Token.Kind} {f : Option Token → Parser β} {ts : List Token}
    (hk : ∀ t rest, ts = t :: rest → t.kind ≠ k) : (take? k >>= f) ts = f none ts := by
  have h : take? k ts = some ⟨none, [], ts⟩ := by
    rcases take?_cases k ts with ⟨t, rest, hts, hkt, -⟩ | ⟨-, h⟩
    · exact absurd hkt (hk t rest hts)
    · exact h
  show Parser.bind (take? k) f ts = _
  simp only [Parser.bind, h]
  cases f none ts <;> rfl

theorem expecting_of_kind {k : Token.Kind} {o : α} {next : Token → Parser α} {t : Token}
    {ts : List Token} (hk : t.kind = k) : expecting k o next (t :: ts) = next t ts := by
  simp [expecting, hk]

theorem expecting_of_ne {k : Token.Kind} {o : α} {next : Token → Parser α} {ts : List Token}
    (hk : ∀ t rest, ts = t :: rest → t.kind ≠ k) :
    expecting k o next ts = some ⟨o, [.expected k (kindAhead ts)], ts⟩ := by
  cases ts with
  | nil => rfl
  | cons t ts => simp only [expecting, if_neg (hk t ts rfl), kindAhead]

/-! ## The functions that look at the next token, by that token -/

variable (fuel place : Nat)

theorem expression_nil :
    expression (fuel + 1) place [] = some ⟨.missing, [.noOperand .endOfInput], []⟩ := by
  simp only [expression, token?_bind_nil]
  rfl

theorem expression_cons (t : Token) (ts : List Token) :
    expression (fuel + 1) place (t :: ts) = expressionFrom fuel place t ts := by
  simp only [expression, token?_bind_cons]

theorem operators_nil (left : Expr) :
    operators (fuel + 1) place left [] = some ⟨left, [], []⟩ := by
  simp only [operators, peek?_bind]
  rfl

/-- A token that does not bind tighter than the place ends the operators. -/
theorem operators_stop {left : Expr} {t : Token} {ts : List Token} (h : ¬ place < t.kind.binding) :
    operators (fuel + 1) place left (t :: ts) = some ⟨left, [], t :: ts⟩ := by
  simp only [operators, peek?_bind, List.head?_cons, if_neg h]
  rfl

theorem operators_call {left : Expr} {t : Token} {ts : List Token} (h : place < t.kind.binding)
    (ht : t.kind = .openParen) :
    operators (fuel + 1) place left (t :: ts) =
      (callFrom fuel t left >>= operators fuel place) ts := by
  simp only [operators, peek?_bind, List.head?_cons, if_pos h, token?_bind_cons, if_pos ht]

theorem operators_binary {left : Expr} {t : Token} {ts : List Token} (h : place < t.kind.binding)
    (ht : t.kind ≠ .openParen) :
    operators (fuel + 1) place left (t :: ts) =
      (expression fuel t.kind.binding >>= fun right =>
        operators fuel place (.binary t t.literal left right)) ts := by
  simp only [operators, peek?_bind, List.head?_cons, if_pos h, token?_bind_cons, if_neg ht]

theorem statementsToBrace_nil :
    statementsToBrace (fuel + 1) [] = some ⟨[], [.expected .closeBrace .endOfInput], []⟩ := by
  simp only [statementsToBrace, token?_bind_nil]
  rfl

theorem statementsToBrace_close {t : Token} {ts : List Token} (ht : t.kind = .closeBrace) :
    statementsToBrace (fuel + 1) (t :: ts) = some ⟨[], [], ts⟩ := by
  simp only [statementsToBrace, token?_bind_cons, if_pos ht]
  rfl

theorem statementsToBrace_cons {t : Token} {ts : List Token} (ht : t.kind ≠ .closeBrace) :
    statementsToBrace (fuel + 1) (t :: ts) =
      (statementFrom fuel t >>= fun s => statementsToBrace fuel >>= fun ss =>
        pure (s.toList ++ ss)) ts := by
  simp only [statementsToBrace, token?_bind_cons, if_neg ht]

theorem statementsToEnd_nil : statementsToEnd (fuel + 1) [] = some ⟨[], [], []⟩ := by
  simp only [statementsToEnd, token?_bind_nil]
  rfl

theorem statementsToEnd_cons (t : Token) (ts : List Token) :
    statementsToEnd (fuel + 1) (t :: ts) =
      (statementFrom fuel t >>= fun s => statementsToEnd fuel >>= fun ss =>
        pure (s.toList ++ ss)) ts := by
  simp only [statementsToEnd, token?_bind_cons]

/-! ## Giving a result -/

/-- The step gives a result and lengthens nothing. -/
def Halts (p : Parser α) (ts : List Token) : Prop :=
  ∃ r, p ts = some r ∧ r.rest.length ≤ ts.length

theorem halts_pure (a : α) (ts : List Token) : Halts (pure a) ts :=
  ⟨⟨a, [], ts⟩, rfl, Nat.le_refl _⟩

theorem halts_report (d : Diagnostic) (a : α) (ts : List Token) : Halts (report d a) ts :=
  ⟨⟨a, [d], ts⟩, rfl, Nat.le_refl _⟩

theorem halts_take? (k : Token.Kind) (ts : List Token) : Halts (take? k) ts := by
  rcases take?_cases k ts with ⟨t, rest, rfl, -, h⟩ | ⟨-, h⟩
  · exact ⟨_, h, Nat.le_succ _⟩
  · exact ⟨_, h, Nat.le_refl _⟩

/-! ## What a result without diagnostics says -/

/-- If the step reports nothing, `Q` holds of its value and of what it leaves. -/
def WhenClean (p : Parser α) (ts : List Token) (Q : α → List Token → Prop) : Prop :=
  ∀ v rest, p ts = some ⟨v, [], rest⟩ → Q v rest

theorem WhenClean.mono {p : Parser α} {ts : List Token} {Q R : α → List Token → Prop}
    (h : WhenClean p ts Q) (hQR : ∀ v rest, Q v rest → R v rest) : WhenClean p ts R :=
  fun v rest hv => hQR v rest (h v rest hv)

theorem WhenClean.of_eq {p q : Parser α} {ts us : List Token} {Q : α → List Token → Prop}
    (h : p ts = q us) (hq : WhenClean q us Q) : WhenClean p ts Q :=
  fun v rest hv => hq v rest (h.symm.trans hv)

theorem whenClean_pure {a : α} {ts : List Token} {Q : α → List Token → Prop} (h : Q a ts) :
    WhenClean (pure a) ts Q := by
  intro v rest hv
  obtain ⟨rfl, -, rfl⟩ := Parsed.mk.inj (Option.some.inj hv)
  exact h

theorem whenClean_report (d : Diagnostic) (a : α) (ts : List Token)
    (Q : α → List Token → Prop) : WhenClean (report d a) ts Q := by
  intro v rest hv
  obtain ⟨-, hd, -⟩ := Parsed.mk.inj (Option.some.inj hv)
  exact absurd hd (by simp)

theorem whenClean_outOfFuel (ts : List Token) (Q : α → List Token → Prop) :
    WhenClean outOfFuel ts Q :=
  fun _ _ hv => absurd hv (by simp [outOfFuel])

/-- A sequence reports nothing only if neither part does. -/
theorem WhenClean.bind {p : Parser α} {f : α → Parser β} {ts : List Token}
    {P : α → List Token → Prop} {Q : β → List Token → Prop} (hp : WhenClean p ts P)
    (hf : ∀ a rest, P a rest → WhenClean (f a) rest Q) : WhenClean (p >>= f) ts Q := by
  intro v rest hv
  obtain ⟨⟨a, da, ra⟩, ⟨b, db, rb⟩, ha, hb, heq⟩ := bind_eq_some.mp hv
  obtain ⟨rfl, hd, rfl⟩ := Parsed.mk.inj heq
  obtain ⟨rfl, rfl⟩ := List.append_eq_nil_iff.mp hd.symm
  exact hf a ra (hp a ra ha) v rest hb

theorem whenClean_take? {k : Token.Kind} {ts : List Token}
    {Q : Option Token → List Token → Prop}
    (hsome : ∀ t rest, ts = t :: rest → t.kind = k → Q (some t) rest) (hnone : Q none ts) :
    WhenClean (take? k) ts Q := by
  intro v rest hv
  rcases take?_cases k ts with ⟨t, rest', hts, hk, h⟩ | ⟨-, h⟩
  · obtain ⟨rfl, -, rfl⟩ := Parsed.mk.inj (Option.some.inj (h.symm.trans hv))
    exact hsome t _ hts hk
  · obtain ⟨rfl, -, rfl⟩ := Parsed.mk.inj (Option.some.inj (h.symm.trans hv))
    exact hnone

theorem whenClean_take?_bind {k : Token.Kind} {f : Option Token → Parser α} {ts : List Token}
    {Q : α → List Token → Prop}
    (hsome : ∀ t rest, ts = t :: rest → t.kind = k → WhenClean (f (some t)) rest Q)
    (hnone : WhenClean (f none) ts Q) : WhenClean (take? k >>= f) ts Q :=
  (whenClean_take? (Q := fun o rest => WhenClean (f o) rest Q) hsome hnone).bind
    fun _ _ h => h

theorem whenClean_expecting {k : Token.Kind} {o : α} {next : Token → Parser α} {ts : List Token}
    {Q : α → List Token → Prop}
    (h : ∀ t rest, ts = t :: rest → t.kind = k → WhenClean (next t) rest Q) :
    WhenClean (expecting k o next) ts Q := by
  intro v rest hv
  cases ts with
  | nil => exact absurd hv (by simp [expecting])
  | cons t rest' =>
    by_cases hk : t.kind = k
    · rw [expecting_of_kind hk] at hv
      exact h t rest' rfl hk v rest hv
    · exact absurd hv (by simp [expecting, hk])

/-! ## Going through without diagnostics -/

/-- Whatever the step hands on, it reports nothing, and `Q` holds of its value and of what it leaves. -/
def Cleanly (p : Parser α) (ts : List Token) (Q : α → List Token → Prop) : Prop :=
  ∀ r, p ts = some r → r.diagnostics = [] ∧ Q r.value r.rest

theorem Cleanly.mono {p : Parser α} {ts : List Token} {Q R : α → List Token → Prop}
    (h : Cleanly p ts Q) (hQR : ∀ v rest, Q v rest → R v rest) : Cleanly p ts R :=
  fun r hr => ⟨(h r hr).1, hQR r.value r.rest (h r hr).2⟩

theorem Cleanly.of_eq {p q : Parser α} {ts us : List Token} {Q : α → List Token → Prop}
    (h : p ts = q us) (hq : Cleanly q us Q) : Cleanly p ts Q :=
  fun r hr => hq r (h.symm.trans hr)

theorem cleanly_pure {a : α} {ts : List Token} {Q : α → List Token → Prop} (h : Q a ts) :
    Cleanly (pure a) ts Q := by
  intro r hr
  obtain rfl := Option.some.inj hr
  exact ⟨rfl, h⟩

theorem cleanly_outOfFuel (ts : List Token) (Q : α → List Token → Prop) :
    Cleanly outOfFuel ts Q :=
  fun _ hr => absurd hr (by simp [outOfFuel])

theorem Cleanly.bind {p : Parser α} {f : α → Parser β} {ts : List Token}
    {P : α → List Token → Prop} {Q : β → List Token → Prop} (hp : Cleanly p ts P)
    (hf : ∀ a rest, P a rest → Cleanly (f a) rest Q) : Cleanly (p >>= f) ts Q := by
  intro r hr
  obtain ⟨a, b, ha, hb, rfl⟩ := bind_eq_some.mp hr
  obtain ⟨hda, hP⟩ := hp a ha
  obtain ⟨hdb, hQ⟩ := hf a.value a.rest hP b hb
  exact ⟨by rw [hda, hdb]; rfl, hQ⟩

theorem cleanly_take?_some {k : Token.Kind} {f : Option Token → Parser α} {t : Token}
    {ts : List Token} {Q : α → List Token → Prop} (hk : t.kind = k)
    (h : Cleanly (f (some t)) ts Q) : Cleanly (take? k >>= f) (t :: ts) Q := by
  intro r hr
  obtain ⟨a, b, ha, hb, rfl⟩ := bind_eq_some.mp hr
  simp only [take?, hk, if_true, Option.some.injEq] at ha
  obtain rfl := ha
  exact h b hb

theorem cleanly_take?_none {k : Token.Kind} {f : Option Token → Parser α} {ts : List Token}
    {Q : α → List Token → Prop} (hk : ∀ t rest, ts = t :: rest → t.kind ≠ k)
    (h : Cleanly (f none) ts Q) : Cleanly (take? k >>= f) ts Q := by
  intro r hr
  obtain ⟨a, b, ha, hb, rfl⟩ := bind_eq_some.mp hr
  rcases take?_cases k ts with ⟨t, rest, hts, hkt, -⟩ | ⟨-, h'⟩
  · exact absurd hkt (hk t rest hts)
  · obtain rfl := Option.some.inj (h'.symm.trans ha)
    exact h b hb

theorem cleanly_expecting {k : Token.Kind} {o : α} {next : Token → Parser α} {t : Token}
    {ts : List Token} {Q : α → List Token → Prop} (hk : t.kind = k)
    (h : Cleanly (next t) ts Q) : Cleanly (expecting k o next) (t :: ts) Q := by
  intro r hr
  rw [expecting_of_kind hk] at hr
  exact h r hr

end LetLang.Parser
