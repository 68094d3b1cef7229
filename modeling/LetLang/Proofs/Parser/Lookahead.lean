import LetLang.Proofs.Grammar.Beginning
import LetLang.Proofs.Parser.Soundness

/-!
# One token of lookahead

The parser looks at the tokens one after the other and never further ahead than the next one. So what a step did is
determined by the tokens that it took and the one after them:

* if it reports nothing, it does the same wherever these tokens stand;
* if it reports something, then the first thing it reports is about the next token, and it reports something wherever
  the tokens up to that one stand. What comes later cannot make up for it.

`Located` says this of a step, with one rule for every way in which steps are put together. It also keeps what the
tokens *before* the one that is reported are: the beginning of what the step was to read. That they are is the whole
use of reporting the token at once.

Some functions of the parser are given their first token as an argument, and some of these report that very token.
`starting` puts it back, so that it can be counted among the tokens that the step was given.
-/

set_option autoImplicit false

namespace LetLang

/-- The diagnostic is about the token that comes next, or about the end. -/
inductive Diagnostic.Names : Diagnostic → List Token → Prop where
  | expected (want : Token.Kind) (ts : List Token) :
      Names (.expected want (Parser.kindAhead ts)) ts
  | noOperand (ts : List Token) : Names (.noOperand (Parser.kindAhead ts)) ts
  | tooLarge {t : Token} {ts : List Token} : t.kind = .int → Names (.tooLarge t.literal) (t :: ts)

namespace Parser

open Grammar

variable {α β : Type}

/-! ## Steps that look one token ahead -/

/-- What the step did is determined by the tokens that it took and the next one. If it reports something, the tokens
before the one it is about satisfy `V`. The step is given with any amount of fuel to spare: with none it did what it
did, and with however much it does so on other tokens. -/
structure Located (p : Nat → Parser α) (ts : List Token) (V : List Token → Prop) : Prop where
  clean : ∀ {v : α} {rest : List Token}, p 0 ts = some ⟨v, [], rest⟩ → ∃ a, ts = a ++ rest ∧
    ∀ n us, us.head? = rest.head? → p n (a ++ us) = some ⟨v, [], us⟩
  fault : ∀ {r : Parsed α} {d : Diagnostic} {ds : List Diagnostic}, p 0 ts = some r →
    r.diagnostics = d :: ds → ∃ a rest, ts = a ++ rest ∧ d.Names rest ∧ V a ∧
      ∀ n us r', us.head? = rest.head? → p n (a ++ us) = some r' → r'.diagnostics ≠ []

theorem head?_append_congr {us rest : List Token} (a : List Token) (h : us.head? = rest.head?) :
    (a ++ us).head? = (a ++ rest).head? := by
  rw [List.head?_append, List.head?_append, h]

section
variable {p q : Nat → Parser α} {f : Nat → α → Parser β} {ts : List Token} {V W : List Token → Prop}

theorem Located.mono (h : Located p ts V) (hVW : ∀ a, V a → W a) : Located p ts W where
  clean := h.clean
  fault hr hd := by
    obtain ⟨a, rest, hts, hnames, hV, hloc⟩ := h.fault hr hd
    exact ⟨a, rest, hts, hnames, hVW a hV, hloc⟩

/-- Only what the step does on tokens with the same first one matters. -/
theorem Located.congr (h : Located q ts V) (heq : ∀ n us, us.head? = ts.head? → p n us = q n us) :
    Located p ts V where
  clean hv := by
    obtain ⟨a, rfl, hloc⟩ := h.clean ((heq 0 ts rfl).symm.trans hv)
    exact ⟨a, rfl, fun n us hus => (heq n _ (head?_append_congr a hus)).trans (hloc n us hus)⟩
  fault hr hd := by
    obtain ⟨a, rest, rfl, hnames, hV, hloc⟩ := h.fault ((heq 0 ts rfl).symm.trans hr) hd
    refine ⟨a, rest, rfl, hnames, hV, fun n us r' hus hr' => ?_⟩
    exact hloc n us r' hus ((heq n _ (head?_append_congr a hus)).symm.trans hr')

theorem Located.of_nil (h : Located q [] V) (heq : ∀ n, p n [] = q n []) : Located p [] V :=
  h.congr fun n us hus => by rw [List.head?_eq_none_iff.mp hus]; exact heq n

theorem Located.of_cons {t : Token} (h : Located q (t :: ts) V)
    (heq : ∀ n us, p n (t :: us) = q n (t :: us)) : Located p (t :: ts) V := by
  refine h.congr fun n us hus => ?_
  obtain ⟨us', rfl⟩ := List.head?_eq_some_iff.mp hus
  exact heq n us'

theorem located_none (h : ∀ ts, p 0 ts = none) : Located p ts V where
  clean hv := absurd ((h ts).symm.trans hv) (by simp)
  fault hr _ := absurd ((h ts).symm.trans hr) (by simp)

theorem located_pure (a : α) : Located (fun _ => pure a) ts V where
  clean hv := by
    obtain ⟨rfl, -, rfl⟩ := Parsed.mk.inj (Option.some.inj hv)
    exact ⟨[], rfl, fun _ us _ => rfl⟩
  fault hr hd := by
    obtain rfl := Option.some.inj hr
    exact absurd hd (by simp)

theorem located_report {d : Diagnostic} (a : α) (hd : d.Names ts) (hV : V []) :
    Located (fun _ => report d a) ts V where
  clean hv := by
    obtain ⟨-, h, -⟩ := Parsed.mk.inj (Option.some.inj hv)
    exact absurd h (by simp)
  fault hr hd' := by
    obtain rfl := Option.some.inj hr
    obtain ⟨rfl, -⟩ := List.cons.inj hd'
    refine ⟨[], ts, rfl, hd, hV, fun _ us r' _ hr' => ?_⟩
    obtain rfl := Option.some.inj hr'
    simp

theorem Located.bind (hp : Located p ts V) (hf : ∀ v a rest, ts = a ++ rest →
      p 0 ts = some ⟨v, [], rest⟩ → Located (fun n => f n v) rest fun b => V (a ++ b)) :
    Located (fun n => p n >>= f n) ts V where
  clean hv := by
    obtain ⟨⟨v, d₁, mid⟩, ⟨w, d₂, rest⟩, hpv, hfv, heq⟩ := bind_eq_some.mp hv
    obtain ⟨rfl, hd, rfl⟩ := Parsed.mk.inj heq
    obtain ⟨rfl, rfl⟩ := List.append_eq_nil_iff.mp hd.symm
    obtain ⟨a, rfl, hloc⟩ := hp.clean hpv
    obtain ⟨b, rfl, hloc'⟩ := (hf v a mid rfl hpv).clean hfv
    refine ⟨a ++ b, (List.append_assoc _ _ _).symm, fun n us hus => ?_⟩
    rw [List.append_assoc]
    exact bind_eq_some.mpr ⟨_, _, hloc n _ (head?_append_congr b hus), hloc' n us hus, rfl⟩
  fault hr hd := by
    obtain ⟨⟨v, d₁, mid⟩, ⟨w, d₂, rest⟩, hpv, hfv, rfl⟩ := bind_eq_some.mp hr
    cases d₁ with
    | cons d' ds' =>
      -- the first step reports it, and so does the sequence
      obtain ⟨rfl, -⟩ := List.cons.inj hd
      obtain ⟨a, rest', hts, hnames, hV, hloc⟩ := hp.fault hpv rfl
      refine ⟨a, rest', hts, hnames, hV, fun n us r' hus hr' hnil => ?_⟩
      obtain ⟨x, y, hx, -, rfl⟩ := bind_eq_some.mp hr'
      exact hloc n us x hus hx (List.append_eq_nil_iff.mp hnil).1
    | nil =>
      -- the first step does the same again, and leaves the second what it left it before
      obtain ⟨a, rfl, hloc⟩ := hp.clean hpv
      obtain ⟨b, rest', rfl, hnames, hV, hloc'⟩ := (hf v a mid rfl hpv).fault hfv hd
      refine ⟨a ++ b, rest', (List.append_assoc _ _ _).symm, hnames, hV,
        fun n us r' hus hr' hnil => ?_⟩
      rw [List.append_assoc] at hr'
      obtain ⟨x, y, hx, hy, rfl⟩ := bind_eq_some.mp hr'
      obtain rfl := Option.some.inj ((hloc n _ (head?_append_congr b hus)).symm.trans hx)
      exact hloc' n us y hus hy (List.append_eq_nil_iff.mp hnil).2

/-- What the first step has read is known from what it gave. -/
theorem Located.bindReads {P : α → List Token → Prop} (hp : Located p ts V)
    (hclean : WhenClean (p 0) ts fun v rest => Reads ts rest (P v))
    (hf : ∀ v a rest, ts = a ++ rest → P v a →
      Located (fun n => f n v) rest fun b => V (a ++ b)) :
    Located (fun n => p n >>= f n) ts V := by
  refine hp.bind fun v a rest hts hv => ?_
  obtain ⟨a', ha', hP⟩ := hclean v rest hv
  obtain rfl := List.append_cancel_right (hts.symm.trans ha')
  exact hf v a rest hts hP

theorem Located.map {g : α → β} (hp : Located p ts V) :
    Located (fun n => p n >>= fun v => pure (g v)) ts V :=
  hp.bind fun _ _ _ _ _ => located_pure _

/-- The step with its first token, which it is given as an argument, still in place. -/
def starting (f : Token → Parser α) : Parser α
  | [] => none
  | t :: ts => f t ts

theorem whenClean_starting {f : Token → Parser α} {t : Token} {P : α → List Token → Prop}
    (h : WhenClean (f t) ts fun v rest => Reads ts rest fun a => P v (t :: a)) :
    WhenClean (starting f) (t :: ts) fun v rest => Reads (t :: ts) rest (P v) := by
  intro v rest hv
  obtain ⟨a, rfl, ha⟩ := h v rest hv
  exact ⟨t :: a, rfl, ha⟩

section
variable {f : Nat → Token → Parser α} {t : Token}

theorem located_starting (h : Located (fun n => f n t) ts fun a => V (t :: a)) :
    Located (fun n => starting (f n)) (t :: ts) V where
  clean hv := by
    obtain ⟨a, rfl, hloc⟩ := h.clean hv
    exact ⟨t :: a, rfl, hloc⟩
  fault hr hd := by
    obtain ⟨a, rest, rfl, hnames, hV, hloc⟩ := h.fault hr hd
    exact ⟨t :: a, rest, rfl, hnames, hV, hloc⟩

/-- A step may also report its first token. -/
theorem located_starting_report {d : Diagnostic} (v : α) (h : ∀ n, f n t = report d v)
    (hd : d.Names (t :: ts)) (hV : V []) : Located (fun n => starting (f n)) (t :: ts) V where
  clean hv := by
    simp only [starting, h] at hv
    obtain ⟨-, hnil, -⟩ := Parsed.mk.inj (Option.some.inj hv)
    exact absurd hnil (by simp)
  fault hr hd' := by
    simp only [starting, h] at hr
    obtain rfl := Option.some.inj hr
    obtain ⟨rfl, -⟩ := List.cons.inj hd'
    refine ⟨[], t :: ts, rfl, hd, hV, fun n us r' hus hr' => ?_⟩
    obtain ⟨us', rfl⟩ := List.head?_eq_some_iff.mp hus
    simp only [List.nil_append, starting, h] at hr'
    obtain rfl := Option.some.inj hr'
    simp

end

theorem located_take?_bind {k : Token.Kind} {f : Nat → Option Token → Parser α}
    (hsome : ∀ t rest, ts = t :: rest → t.kind = k →
      Located (fun n => f n (some t)) rest fun a => V (t :: a))
    (hnone : Located (fun n => f n none) ts V) : Located (fun n => take? k >>= f n) ts V := by
  cases ts with
  | nil => exact hnone.of_nil fun n => take?_bind_of_ne fun t rest h => absurd h (by simp)
  | cons t ts =>
    by_cases hk : t.kind = k
    · refine (located_starting (f := fun n t => f n (some t)) (hsome t ts rfl hk)).of_cons ?_
      exact fun n us => take?_bind_of_kind hk
    · refine hnone.of_cons fun n us => take?_bind_of_ne ?_
      rintro t' rest h
      obtain ⟨rfl, -⟩ := List.cons.inj h
      exact hk

theorem located_expecting {k : Token.Kind} {o : α} {next : Nat → Token → Parser α} (hV : V [])
    (hnext : ∀ t rest, ts = t :: rest → t.kind = k →
      Located (fun n => next n t) rest fun a => V (t :: a)) :
    Located (fun n => expecting k o (next n)) ts V := by
  cases ts with
  | nil => exact (located_report o (.expected k []) hV).of_nil fun n => rfl
  | cons t ts =>
    by_cases hk : t.kind = k
    · exact (located_starting (hnext t ts rfl hk)).of_cons fun n us => expecting_of_kind hk
    · refine (located_report o (.expected k (t :: ts)) hV).of_cons fun n us => ?_
      simp only [expecting, if_neg hk]
      rfl

end

/-! ## Lists of parameters

They are read by two functions that recurse on the tokens. Each is shown to be put together from steps like the
others. -/

/-- Further parameters as a step. -/
def furtherParameters : Parser (Option (List Ident)) := fun ts => some (moreParameters ts)

theorem furtherParameters_eq (ts : List Token) :
    furtherParameters ts = (take? .comma >>= fun comma =>
      match comma with
      | some _ => expecting .ident none fun x =>
          furtherParameters >>= fun xs => pure (xs.map (⟨x, x.literal⟩ :: ·))
      | none => expecting .closeParen none fun _ => pure (some [])) ts := by
  rw [furtherParameters]
  fun_cases moreParameters ts with
  | case1 c name ts more =>
    refine Eq.trans ?_ (take?_bind_of_kind (t := ⟨.comma, c⟩) rfl).symm
    exact (bind_eq_some.mpr ⟨more, ⟨_, [], more.rest⟩, rfl, rfl, by rw [List.append_nil]⟩).symm
  | case2 c ts hnot =>
    refine Eq.trans ?_ (take?_bind_of_kind (t := ⟨.comma, c⟩) rfl).symm
    refine (expecting_of_ne ?_).symm
    rintro ⟨k, name⟩ rest rfl rfl
    exact hnot name rest rfl
  | case3 c ts =>
    refine Eq.trans ?_ (take?_bind_of_ne ?_).symm
    · rfl
    · rintro t rest h
      obtain ⟨rfl, -⟩ := List.cons.inj h
      simp
  | case4 ts h₁ h₂ h₃ =>
    refine Eq.trans ?_ (take?_bind_of_ne ?_).symm
    · refine (expecting_of_ne ?_).symm
      rintro ⟨k, p⟩ rest rfl rfl
      exact h₃ p rest rfl
    · rintro ⟨k, c⟩ rest rfl rfl
      exact h₂ c rest rfl

theorem parameters_eq (ts : List Token) :
    parameters ts = (take? .closeParen >>= fun close =>
      match close with
      | some _ => pure (some [])
      | none => expecting .ident none fun x =>
          furtherParameters >>= fun xs => pure (xs.map (⟨x, x.literal⟩ :: ·))) ts := by
  fun_cases parameters ts with
  | case1 p ts =>
    refine Eq.trans ?_ (take?_bind_of_kind (t := ⟨.closeParen, p⟩) rfl).symm
    rfl
  | case2 name ts more =>
    refine Eq.trans ?_ (take?_bind_of_ne ?_).symm
    · exact (bind_eq_some.mpr ⟨more, ⟨_, [], more.rest⟩, rfl, rfl, by rw [List.append_nil]⟩).symm
    · rintro t rest h
      obtain ⟨rfl, -⟩ := List.cons.inj h
      simp
  | case3 ts h h' =>
    refine Eq.trans ?_ (take?_bind_of_ne ?_).symm
    · refine (expecting_of_ne ?_).symm
      rintro ⟨k, p⟩ rest rfl rfl
      exact h' p rest rfl
    · rintro ⟨k, p⟩ rest rfl rfl
      exact h p rest rfl

theorem located_furtherParameters (ts : List Token) :
    Located (fun _ => furtherParameters) ts fun a =>
      ∀ x : Token, x.kind = .ident → Begins .parameterList (x :: a) := by
  induction hn : ts.length using Nat.strongRecOn generalizing ts with
  | ind n ih =>
    subst hn
    refine Located.congr ?_ fun _ us _ => furtherParameters_eq us
    refine located_take?_bind (fun c rest hts hc => ?_) ?_
    · refine located_expecting (fun x hx => ?_) fun y rest' hrest hy => ?_
      · exact ⟨[⟨.ident, "x"⟩], .moreParameters hx hc (.oneParameter rfl)⟩
      · subst hts hrest
        refine ((ih rest'.length (by simp only [List.length_cons]; omega) rest' rfl).mono ?_).map
        exact fun a ha x hx => begins_moreParameters hx hc (ha y hy)
    · exact located_expecting (fun x hx => (Derives.oneParameter hx).begins)
        fun p rest _ hp => located_pure _

theorem located_parameters (ts : List Token) :
    Located (fun _ => parameters) ts (Begins .parameters) := by
  refine Located.congr ?_ fun _ us _ => parameters_eq us
  refine located_take?_bind (fun p rest _ _ => located_pure _) ?_
  refine located_expecting Derives.noParameters.begins fun x rest _ hx => ?_
  refine ((located_furtherParameters rest).mono fun a ha => ?_).map
  obtain ⟨b, hb⟩ := ha x hx
  exact ⟨b, .someParameters hb⟩

/-! ## One function at a time -/

/-- Every function looks one token ahead, and what it has read before it reports something is the beginning of what it
was to read. -/
structure LocatedAt (fuel : Nat) : Prop where
  expression : ∀ place ts,
    Located (fun n => expression (n + fuel) place) ts (Begins .expr)
  expressionFrom : ∀ place t ts,
    Located (fun n => starting (expressionFrom (n + fuel) place)) (t :: ts) (Begins .expr)
  operand : ∀ t form ts, t.kind.operandForm? = some form →
    Located (fun n => starting fun t => operand (n + fuel) t form) (t :: ts) (Begins .expr)
  operators : ∀ place left l ts, Spells (.expr left) l →
    Located (fun n => operators (n + fuel) place left) ts fun a => Begins .expr (l ++ a)
  callFrom : ∀ t callee l ts, t.kind = .openParen → Spells (.expr callee) l →
    Located (fun n => callFrom (n + fuel) t callee) ts fun a => Begins .expr (l ++ t :: a)
  moreArguments : ∀ ts, Located (fun n => moreArguments (n + fuel)) ts fun a =>
    ∀ l, Derives .expr l → Begins .argumentList (l ++ a)
  blockFrom : ∀ brace ts, brace.kind = .openBrace →
    Located (fun n => blockFrom (n + fuel) brace) ts fun a => Begins .block (brace :: a)
  statementsToBrace : ∀ ts,
    Located (fun n => statementsToBrace (n + fuel)) ts (Begins .stmts)
  statementFrom : ∀ t ts,
    Located (fun n => starting (statementFrom (n + fuel))) (t :: ts) (Begins .stmt)

variable {fuel : Nat}

theorem located_expression (ih : LocatedAt fuel) (place : Nat) (ts : List Token) :
    Located (fun n => expression (n + (fuel + 1)) place) ts (Begins .expr) := by
  cases ts with
  | nil =>
    refine (located_report .missing (.noOperand []) begins_expr_nil).of_nil fun n => ?_
    exact expression_nil (n + fuel) place
  | cons t ts =>
    exact (ih.expressionFrom place t ts).of_cons fun n us => expression_cons (n + fuel) place t us

theorem located_expressionFrom (ih : LocatedAt fuel) (place : Nat) (t : Token) (ts : List Token) :
    Located (fun n => starting (expressionFrom (n + (fuel + 1)) place)) (t :: ts)
      (Begins .expr) := by
  cases hform : t.kind.operandForm? with
  | none =>
    refine located_starting_report .missing (fun n => ?_) (.noOperand (t :: ts)) begins_expr_nil
    simp only [expressionFrom, hform]
    rfl
  | some form =>
    have hsound := whenClean_starting (f := fun t => operand (0 + fuel) t form)
      (P := fun e a => Spells (.expr e) a) ((soundAt_all (0 + fuel)).operand t form ts hform)
    refine Located.of_cons ((ih.operand t form ts hform).bindReads hsound fun left a rest _ ha =>
      ih.operators place left a rest ha) fun n us => ?_
    simp only [starting, expressionFrom, hform]
    rfl

/-- A block and what comes after it. -/
theorem located_block (ih : LocatedAt fuel) {next : Nat → Block → Parser α} {o : α}
    {V : List Token → Prop} {ts : List Token} (hV : ∀ b, Begins .block b → V b)
    (hnext : ∀ body b rest, ts = b ++ rest → Spells (.block body) b →
      Located (fun n => next n body) rest fun c => V (b ++ c)) :
    Located (fun n => expecting .openBrace o fun brace => blockFrom (n + fuel) brace >>= next n)
      ts V := by
  refine located_expecting (hV [] begins_block_nil) fun brace rest hts hb => ?_
  refine ((ih.blockFrom brace rest hb).mono fun a ha => hV _ ha).bindReads
    ((soundAt_all (0 + fuel)).blockFrom brace rest hb) fun body a rest' hrest ha => ?_
  exact hnext body (brace :: a) rest' (by rw [hts, hrest]; rfl) ha

theorem located_conditional (ih : LocatedAt fuel) (t : Token) (ts : List Token)
    (hk : t.kind = .kwIf) :
    Located (fun n => operand (n + (fuel + 1)) t .conditional) ts fun a =>
      Begins .expr (t :: a) := by
  refine located_expecting ?_ fun o ts₁ _ ho => ?_
  · exact (begins_condition hk (o := .fixed .openParen) rfl begins_expr_nil).of_append (a := [t])
  refine ((ih.expression _ ts₁).mono fun a ha => begins_condition hk ho ha).bindReads
    ((soundAt_all (0 + fuel)).expression _ ts₁) fun c a ts₂ _ ha => ?_
  have hc := ha.derives
  refine located_expecting ?_ fun p ts₃ _ hp => ?_
  · rw [List.append_nil]
    exact begins_condition hk ho hc.begins
  refine located_block ih (fun b hb => begins_branch hk ho hc hp hb) fun body b ts₄ _ hb => ?_
  refine located_take?_bind (fun kw ts₅ _ hkw => ?_) (located_pure _)
  refine located_block ih (fun b' hb' => ?_) fun other b' _ _ _ => located_pure _
  exact begins_otherBranch hk ho hc hp hb.derives hkw hb'

theorem located_function (ih : LocatedAt fuel) (t : Token) (ts : List Token) (hk : t.kind = .kwFn) :
    Located (fun n => operand (n + (fuel + 1)) t .function) ts fun a => Begins .expr (t :: a) := by
  have hopen := begins_parameters hk (o := .fixed .openParen) rfl Derives.noParameters.begins
  refine located_expecting (hopen.of_append (a := [t])) fun o ts₁ _ ho => ?_
  refine ((located_parameters ts₁).mono fun a ha => begins_parameters hk ho ha).bind
    fun xs a ts₂ hts₂ hxs => ?_
  -- what was read are the parameters and the parenthesis that closes them
  obtain ⟨params, p, rfl, hp, a', ha', hparams⟩ := parameters_sound ts₁ xs ts₂ hxs
  obtain rfl : a = a' ++ [p] := by
    refine List.append_cancel_right (hts₂.symm.trans (ha'.trans ?_))
    rw [List.append_assoc]
    rfl
  refine located_block ih (fun b hb => ?_) fun body b _ _ _ => located_pure _
  rw [List.append_assoc]
  exact begins_body hk ho hparams.derives.parameters_of_phrase hp hb

theorem located_operand (ih : LocatedAt fuel) (t : Token) (form : OperandForm) (ts : List Token)
    (hform : t.kind.operandForm? = some form) :
    Located (fun n => starting fun t => operand (n + (fuel + 1)) t form) (t :: ts)
      (Begins .expr) := by
  have hk := kind_of_operandForm? hform
  cases form with
  | name | truth b => exact located_starting (located_pure _)
  | number =>
    cases hn : integer? t.literal with
    | none =>
      refine located_starting_report .missing (fun n => ?_) (.tooLarge hk) begins_expr_nil
      simp only [operand, hn]
    | some n =>
      refine located_starting ?_
      simp only [operand, hn]
      exact located_pure _
  | signed =>
    refine located_starting ((ih.expression _ ts).mono fun a ha => ?_).map
    exact begins_unary (isSign_of_operandForm? hform) ha
  | group =>
    refine located_starting (((ih.expression _ ts).mono fun a ha => begins_group hk ha).bindReads
      ((soundAt_all (0 + fuel)).expression _ ts) fun e a ts₁ _ ha => ?_)
    refine located_expecting ?_ fun p ts₂ _ hp => located_pure _
    rw [List.append_nil]
    exact begins_group hk ha.derives.begins
  | conditional => exact located_starting (located_conditional ih t ts hk)
  | function => exact located_starting (located_function ih t ts hk)

theorem located_operators (ih : LocatedAt fuel) (place : Nat) (left : Expr) (l ts : List Token)
    (hl : Spells (.expr left) l) :
    Located (fun n => operators (n + (fuel + 1)) place left) ts fun a => Begins .expr (l ++ a) := by
  cases ts with
  | nil => exact (located_pure left).of_nil fun n => operators_nil (n + fuel) place left
  | cons t ts =>
    by_cases hb : place < t.kind.binding
    · by_cases ht : t.kind = .openParen
      · have hcall := (ih.callFrom t left l ts ht hl).bindReads
          ((soundAt_all (0 + fuel)).callFrom t left l ts ht hl) fun e a rest _ ha =>
            (ih.operators place e _ rest ha).mono fun b hb => by simpa using hb
        refine (located_starting (f := fun n t => callFrom (n + fuel) t left >>= operators (n + fuel) place)
          hcall).of_cons fun n us => ?_
        exact operators_call (n + fuel) place hb ht
      · have hop : t.kind.isInfix = true := isInfix_of_binding (by omega) ht
        have hright := ((ih.expression t.kind.binding ts).mono fun a ha =>
          begins_binary hl.derives hop ha).bindReads ((soundAt_all (0 + fuel)).expression _ ts)
            fun right a rest _ ha =>
              (ih.operators place _ _ rest (.binary hl hop ha)).mono fun b hb => by simpa using hb
        refine (located_starting (f := fun n t => expression (n + fuel) t.kind.binding >>= fun right =>
          operators (n + fuel) place (.binary t t.literal left right)) hright).of_cons fun n us => ?_
        exact operators_binary (n + fuel) place hb ht
    · exact (located_pure left).of_cons fun n us => operators_stop (n + fuel) place hb

theorem located_callFrom (ih : LocatedAt fuel) (t : Token) (callee : Expr) (l ts : List Token)
    (ht : t.kind = .openParen) (hl : Spells (.expr callee) l) :
    Located (fun n => callFrom (n + (fuel + 1)) t callee) ts fun a =>
      Begins .expr (l ++ t :: a) := by
  have hcall {a : List Token} (h : Begins .argumentList a) : Begins .expr (l ++ t :: a) :=
    begins_call hl.derives ht (begins_arguments h)
  refine located_take?_bind (fun p rest _ _ => located_pure _) ?_
  refine ((ih.expression _ ts).mono fun a ha => hcall (begins_argument ha)).bindReads
    ((soundAt_all (0 + fuel)).expression _ ts) fun first a ts₁ _ ha => ?_
  refine ((ih.moreArguments ts₁).mono fun b hb => hcall (hb a ha.derives)).bindReads
    ((soundAt_all (0 + fuel)).moreArguments ts₁) fun more b ts₂ _ hb => ?_
  refine located_expecting ?_ fun p rest _ hp => located_pure _
  rw [List.append_nil]
  exact hcall (hb first a ha).derives.begins

theorem located_moreArguments (ih : LocatedAt fuel) (ts : List Token) :
    Located (fun n => moreArguments (n + (fuel + 1))) ts fun a =>
      ∀ l, Derives .expr l → Begins .argumentList (l ++ a) := by
  refine located_take?_bind (fun c ts₁ _ hc => ?_) (located_pure _)
  refine ((ih.expression _ ts₁).mono fun a ha l hl => ?_).bindReads
    ((soundAt_all (0 + fuel)).expression _ ts₁) fun e a ts₂ _ ha => ?_
  · exact begins_moreArguments hl hc (begins_argument ha)
  · refine ((ih.moreArguments ts₂).mono fun b hb l hl => ?_).map
    exact begins_moreArguments hl hc (hb a ha.derives)

theorem located_blockFrom (ih : LocatedAt fuel) (brace : Token) (ts : List Token)
    (hb : brace.kind = .openBrace) :
    Located (fun n => blockFrom (n + (fuel + 1)) brace) ts fun a => Begins .block (brace :: a) :=
  ((ih.statementsToBrace ts).mono fun _ ha => begins_block hb ha).map

/-- A statement and those after it. -/
theorem located_nextStmt (ih : LocatedAt fuel) {others : Nat → Parser (List Stmt)}
    (hothers : ∀ ts, Located others ts (Begins .stmts)) (t : Token) (ts : List Token) :
    Located (fun n => starting (statementFrom (n + fuel)) >>= fun s =>
      others n >>= fun ss => pure (s.toList ++ ss)) (t :: ts) (Begins .stmts) := by
  have hsound : WhenClean (starting (statementFrom (0 + fuel))) (t :: ts) fun s rest =>
      Reads (t :: ts) rest fun a => ∃ s', s = some s' ∧ Spells (.stmt s') a := by
    refine whenClean_starting (((soundAt_all (0 + fuel)).statementFrom t ts).mono fun s rest h => ?_)
    obtain ⟨s', rfl, h⟩ := h
    exact h.mono fun a ha => ⟨s', rfl, ha⟩
  refine ((ih.statementFrom t ts).mono fun a ha => begins_stmts ha).bindReads hsound ?_
  intro s a rest _ hs
  obtain ⟨s', rfl, ha⟩ := hs
  exact ((hothers rest).mono fun b hb => begins_stmts_append ha.derives hb).map

theorem located_statementsToBrace (ih : LocatedAt fuel) (ts : List Token) :
    Located (fun n => statementsToBrace (n + (fuel + 1))) ts (Begins .stmts) := by
  cases ts with
  | nil =>
    refine (located_report [] (.expected .closeBrace []) begins_stmts_nil).of_nil fun n => ?_
    exact statementsToBrace_nil (n + fuel)
  | cons t ts =>
    by_cases ht : t.kind = .closeBrace
    · refine (located_starting (f := fun _ _ => pure []) (located_pure [])).of_cons fun n us => ?_
      exact statementsToBrace_close (n + fuel) ht
    · refine (located_nextStmt ih ih.statementsToBrace t ts).of_cons fun n us => ?_
      exact statementsToBrace_cons (n + fuel) ht

/-- The expression of a statement, and its semicolon if there is one. -/
theorem Located.semicolon {p : Nat → Parser Expr} {ts : List Token} {V : List Token → Prop} {g : Expr → α}
    (h : Located p ts V) :
    Located (fun n => p n >>= fun e => take? .semicolon >>= fun _ => pure (g e)) ts V :=
  h.bind fun _ _ _ _ _ => located_take?_bind (fun _ _ _ _ => located_pure _) (located_pure _)

theorem located_statementFrom (ih : LocatedAt fuel) (t : Token) (ts : List Token) :
    Located (fun n => starting (statementFrom (n + (fuel + 1)))) (t :: ts) (Begins .stmt) := by
  by_cases hlet : t.kind = .kwLet
  · have hassign : (Token.fixed .assign).kind = .assign := rfl
    have hbegins (x : Token) (hx : x.kind = .ident) : Begins .stmt [t, x] :=
      (begins_stmt_bind hlet hx hassign begins_expr_nil).of_append
    refine located_starting ?_
    simp only [statementFrom, hlet]
    refine located_expecting ((hbegins ⟨.ident, "x"⟩ rfl).of_append (a := [t]))
      fun x ts₁ _ hx => located_expecting (hbegins x hx) fun eq ts₂ _ he => ?_
    exact ((ih.expression _ ts₂).mono fun a ha => begins_stmt_bind hlet hx he ha).semicolon
  · by_cases hret : t.kind = .kwReturn
    · refine located_starting ?_
      simp only [statementFrom, hret]
      refine located_take?_bind (fun semi rest _ _ => located_pure _) ?_
      exact ((ih.expression _ ts).mono fun a ha => begins_stmt_ret hret ha).semicolon
    · -- here the first token may be the one that is reported
      have hexpr := (ih.expressionFrom Binding.lowest t ts).mono fun a ha => begins_stmt_expr ha
      refine (hexpr.semicolon (g := fun e => some (.expr t e))).of_cons fun n us => ?_
      simp only [starting, statementFrom]
      rfl

/-! ## All functions together -/

theorem locatedAt_all : ∀ fuel, LocatedAt fuel := by
  intro fuel
  induction fuel with
  | zero =>
    constructor <;> intros <;>
      first | exact located_none fun _ => rfl | exact located_starting (located_none fun _ => rfl)
  | succ fuel ih =>
    exact ⟨located_expression ih, located_expressionFrom ih, located_operand ih,
      located_operators ih, located_callFrom ih, located_moreArguments ih, located_blockFrom ih,
      located_statementsToBrace ih, located_statementFrom ih⟩

theorem located_statementsToEnd : ∀ (fuel : Nat) (ts : List Token),
    Located (fun n => statementsToEnd (n + fuel)) ts (Begins .stmts) := by
  intro fuel
  induction fuel with
  | zero => exact fun ts => located_none fun _ => rfl
  | succ fuel ih =>
    intro ts
    cases ts with
    | nil => exact (located_pure []).of_nil fun n => statementsToEnd_nil (n + fuel)
    | cons t ts =>
      refine (located_nextStmt (locatedAt_all fuel) ih t ts).of_cons fun n us => ?_
      exact statementsToEnd_cons (n + fuel) t us

end Parser

end LetLang
