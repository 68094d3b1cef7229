import LetLang.Proofs.Grammar
import LetLang.Proofs.Parser.Fuel

/-!
# What the parser accepts is in the grammar

A function of the parser that reports nothing has read a text of the tree it hands on: between the tokens
it was given and the tokens it leaves stands a sequence that `Spells` that tree. No token is skipped and
none is made up, because the sequence is all that lies between the two.

Binding powers play no part here. Whatever place an expression is read in, what was read is one way of
writing the result; which of several ways it is would only matter for the converse.
-/

set_option autoImplicit false

namespace LetLang.Parser

open Grammar

/-- What lies between `ts` and its remainder `rest` satisfies `P`. -/
def Reads (ts rest : List Token) (P : List Token → Prop) : Prop :=
  ∃ a, ts = a ++ rest ∧ P a

theorem Reads.mono {ts rest : List Token} {P R : List Token → Prop} (h : Reads ts rest P)
    (hPR : ∀ a, P a → R a) : Reads ts rest R :=
  let ⟨a, ha, hp⟩ := h
  ⟨a, ha, hPR a hp⟩

/-- What each function of the parser has read when it reports nothing. -/
structure SoundAt (fuel : Nat) : Prop where
  expression : ∀ place ts, WhenClean (expression fuel place) ts fun e rest =>
    Reads ts rest (Spells (.expr e))
  expressionFrom : ∀ place t ts, WhenClean (expressionFrom fuel place t) ts fun e rest =>
    Reads ts rest fun a => Spells (.expr e) (t :: a)
  operand : ∀ t form ts, t.kind.operandForm? = some form →
    WhenClean (operand fuel t form) ts fun e rest =>
      Reads ts rest fun a => Spells (.expr e) (t :: a)
  /-- Operators extend whatever text the left operand has. -/
  operators : ∀ place left l ts, Spells (.expr left) l →
    WhenClean (operators fuel place left) ts fun e rest =>
      Reads ts rest fun a => Spells (.expr e) (l ++ a)
  callFrom : ∀ t callee l ts, t.kind = .openParen → Spells (.expr callee) l →
    WhenClean (callFrom fuel t callee) ts fun e rest =>
      Reads ts rest fun a => Spells (.expr e) (l ++ t :: a)
  /-- Further arguments extend whatever text the first one has. -/
  moreArguments : ∀ ts, WhenClean (moreArguments fuel) ts fun es rest =>
    Reads ts rest fun a => ∀ e l, Spells (.expr e) l → Spells (.arguments (e :: es)) (l ++ a)
  blockFrom : ∀ brace ts, brace.kind = .openBrace →
    WhenClean (blockFrom fuel brace) ts fun b rest =>
      Reads ts rest fun a => Spells (.block b) (brace :: a)
  statementsToBrace : ∀ ts, WhenClean (statementsToBrace fuel) ts fun ss rest =>
    ∃ c, c.kind = .closeBrace ∧ Reads ts (c :: rest) (Spells (.stmts ss))
  statementFrom : ∀ t ts, WhenClean (statementFrom fuel t) ts fun s rest =>
    ∃ s', s = some s' ∧ Reads ts rest fun a => Spells (.stmt s') (t :: a)

/-! ## Facts about single tokens -/

/-- A token that binds an operand before it is the parenthesis of a call or one of the operators. -/
theorem isInfix_of_binding {k : Token.Kind} (h : 0 < k.binding) (hk : k ≠ .openParen) :
    k.isInfix = true := by
  cases k <;> first | rfl | exact absurd rfl hk | exact absurd h (by decide)

theorem isSign_of_operandForm? {k : Token.Kind} (h : k.operandForm? = some .signed) :
    k.isSign = true := by
  cases k <;> first | rfl | exact absurd h (by simp [Token.Kind.operandForm?])

/-- Every form other than a sign has one first token only. -/
theorem kind_of_operandForm? {k : Token.Kind} {form : OperandForm}
    (h : k.operandForm? = some form) : match form with
      | .name => k = .ident
      | .number => k = .int
      | .truth b => k = (if b then .kwTrue else .kwFalse)
      | .signed => True
      | .group => k = .openParen
      | .conditional => k = .kwIf
      | .function => k = .kwFn := by
  cases k <;> simp only [Token.Kind.operandForm?, Option.some.injEq, reduceCtorEq] at h <;>
    subst h <;> simp

/-! ## Lists -/

/-- Nothing that is written down is a hole. -/
theorem isPresent_of_spells {e : Expr} {a : List Token} (h : Spells (.expr e) a) :
    e.isPresent = true := by
  generalize hp : Part.expr e = p at h
  induction h with
  | group _ _ _ ih => exact ih hp
  | _ => cases hp <;> rfl

/-- So the arguments of a call that was read without diagnostics are all kept. -/
theorem filter_isPresent_of_spells {es : List Expr} {a : List Token}
    (h : Spells (.arguments es) a) : es.filter Expr.isPresent = es := by
  generalize hp : Part.arguments es = p at h
  induction h generalizing es with
  | noArguments => cases hp; rfl
  | oneArgument he => cases hp; simp [isPresent_of_spells he]
  | moreArguments he _ _ _ ih =>
    cases hp
    rw [List.filter_cons_of_pos (isPresent_of_spells he), ih rfl]
  | _ => cases hp

theorem whenClean_take?_semicolon (ts : List Token) :
    WhenClean (take? .semicolon) ts fun _ rest => Reads ts rest (Derives .semicolon?) :=
  whenClean_take? (fun t _ hts hk => ⟨[t], hts, .semicolon hk⟩) ⟨[], rfl, .noSemicolon⟩

/-- Parameters after the first, and the parenthesis that closes them, extend the text of the first. -/
theorem moreParameters_sound (ts : List Token) : (moreParameters ts).diagnostics = [] →
    ∃ xs c, (moreParameters ts).value = some xs ∧ c.kind = .closeParen ∧
      Reads ts (c :: (moreParameters ts).rest) fun a => ∀ x : Token, x.kind = .ident →
        Spells (.parameters (⟨x, x.literal⟩ :: xs)) (x :: a) := by
  fun_induction moreParameters ts with
  | case1 c name ts more ih =>
    intro hd
    obtain ⟨xs, p, hxs, hp, a, ha, hsp⟩ := ih hd
    exact ⟨_, p, congrArg (Option.map _) hxs, hp, ⟨.comma, c⟩ :: ⟨.ident, name⟩ :: a,
      congrArg (_ :: _ :: ·) ha, fun x hx => .moreParameters hx rfl (hsp ⟨.ident, name⟩ rfl)⟩
  | case2 => intro hd; exact absurd hd (by simp)
  | case3 c ts =>
    intro _
    exact ⟨[], ⟨.closeParen, c⟩, rfl, rfl, [], rfl, fun x hx => .oneParameter hx⟩
  | case4 => intro hd; exact absurd hd (by simp)

theorem parameters_sound (ts : List Token) :
    WhenClean parameters ts fun xs rest => ∃ params c, xs = some params ∧ c.kind = .closeParen ∧
      Reads ts (c :: rest) (Spells (.parameters params)) := by
  intro v rest hv
  fun_cases parameters ts with
  | case1 c ts =>
    obtain ⟨rfl, -, rfl⟩ := Parsed.mk.inj (Option.some.inj hv)
    exact ⟨[], ⟨.closeParen, c⟩, rfl, rfl, [], rfl, .noParameters⟩
  | case2 name ts more =>
    obtain ⟨rfl, hd, rfl⟩ := Parsed.mk.inj (Option.some.inj hv)
    obtain ⟨xs, p, hxs, hp, a, ha, hsp⟩ := moreParameters_sound ts hd
    exact ⟨_, p, congrArg (Option.map _) hxs, hp, ⟨.ident, name⟩ :: a, congrArg (_ :: ·) ha,
      hsp ⟨.ident, name⟩ rfl⟩
  | case3 ts h h' =>
    rw [parameters] at hv
    · exact absurd hv (by simp)
    · exact h
    · exact h'

/-! ## One function at a time -/

variable {fuel : Nat}

theorem sound_expression (ih : SoundAt fuel) (place : Nat) (ts : List Token) :
    WhenClean (expression (fuel + 1) place) ts fun e rest => Reads ts rest (Spells (.expr e)) := by
  cases ts with
  | nil => exact .of_eq (expression_nil fuel place) (whenClean_report _ _ _ _)
  | cons t ts =>
    refine .of_eq (expression_cons fuel place t ts) ?_
    refine (ih.expressionFrom place t ts).mono fun e rest h => ?_
    obtain ⟨a, rfl, ha⟩ := h
    exact ⟨t :: a, rfl, ha⟩

theorem sound_expressionFrom (ih : SoundAt fuel) (place : Nat) (t : Token) (ts : List Token) :
    WhenClean (expressionFrom (fuel + 1) place t) ts fun e rest =>
      Reads ts rest fun a => Spells (.expr e) (t :: a) := by
  simp only [expressionFrom]
  cases hform : t.kind.operandForm? with
  | none => exact whenClean_report _ _ _ _
  | some form =>
    refine WhenClean.bind (ih.operand t form ts hform) fun left ts₁ h₁ => ?_
    obtain ⟨a, rfl, ha⟩ := h₁
    refine (ih.operators place left (t :: a) ts₁ ha).mono fun e rest h => ?_
    obtain ⟨b, rfl, hb⟩ := h
    exact ⟨a ++ b, (List.append_assoc _ _ _).symm, hb⟩

theorem sound_conditional (ih : SoundAt fuel) (t : Token) (ts : List Token)
    (hk : t.kind = .kwIf) :
    WhenClean (operand (fuel + 1) t .conditional) ts fun e rest =>
      Reads ts rest fun a => Spells (.expr e) (t :: a) := by
  refine whenClean_expecting fun o ts₁ h₁ ho => ?_
  refine WhenClean.bind (ih.expression _ ts₁) fun c ts₂ h₂ => ?_
  obtain ⟨a, rfl, ha⟩ := h₂
  refine whenClean_expecting fun p ts₃ h₃ hp => whenClean_expecting fun brace ts₄ h₄ hb => ?_
  refine WhenClean.bind (ih.blockFrom brace ts₄ hb) fun body ts₅ h₅ => ?_
  obtain ⟨b, rfl, hbody⟩ := h₅
  subst h₁ h₃ h₄
  refine whenClean_take?_bind (fun kw ts₆ h₆ hkw => ?_) ?_
  · refine whenClean_expecting fun brace' ts₇ h₇ hb' => ?_
    refine WhenClean.bind (ih.blockFrom brace' ts₇ hb') fun other rest h => whenClean_pure ?_
    obtain ⟨b', rfl, hother⟩ := h
    subst h₆ h₇
    exact ⟨o :: (a ++ p :: (brace :: b ++ kw :: brace' :: b')), by simp,
      .ifElse hk ho ha hp hbody hkw hother⟩
  · exact whenClean_pure ⟨o :: (a ++ p :: brace :: b), by simp, .ifThen hk ho ha hp hbody⟩

theorem sound_function (ih : SoundAt fuel) (t : Token) (ts : List Token) (hk : t.kind = .kwFn) :
    WhenClean (operand (fuel + 1) t .function) ts fun e rest =>
      Reads ts rest fun a => Spells (.expr e) (t :: a) := by
  refine whenClean_expecting fun o ts₁ h₁ ho => ?_
  refine WhenClean.bind (parameters_sound ts₁) fun xs ts₂ h₂ => ?_
  obtain ⟨params, p, rfl, hp, a, rfl, ha⟩ := h₂
  refine whenClean_expecting fun brace ts₃ h₃ hb => ?_
  refine WhenClean.bind (ih.blockFrom brace ts₃ hb) fun body rest h => whenClean_pure ?_
  obtain ⟨b, rfl, hbody⟩ := h
  subst h₁ h₃
  exact ⟨o :: (a ++ p :: brace :: b), by simp, .fn hk ho ha hp hbody⟩

theorem sound_operand (ih : SoundAt fuel) (t : Token) (form : OperandForm) (ts : List Token)
    (hform : t.kind.operandForm? = some form) :
    WhenClean (operand (fuel + 1) t form) ts fun e rest =>
      Reads ts rest fun a => Spells (.expr e) (t :: a) := by
  have hk := kind_of_operandForm? hform
  cases form with
  | name => exact whenClean_pure ⟨[], rfl, .name hk⟩
  | truth b => exact whenClean_pure ⟨[], rfl, .truth hk⟩
  | number =>
    simp only [operand]
    cases hn : integer? t.literal with
    | none => exact whenClean_report _ _ _ _
    | some n => exact whenClean_pure ⟨[], rfl, .number hk hn⟩
  | signed =>
    refine WhenClean.bind (ih.expression _ ts) fun e ts₁ h₁ => ?_
    exact whenClean_pure (h₁.mono fun a ha => .unary (isSign_of_operandForm? hform) ha)
  | group =>
    refine WhenClean.bind (ih.expression _ ts) fun e ts₁ h₁ => ?_
    obtain ⟨a, rfl, ha⟩ := h₁
    refine whenClean_expecting fun p ts₂ h₂ hp => whenClean_pure ?_
    exact ⟨a ++ [p], by rw [h₂]; simp, .group hk ha hp⟩
  | conditional => exact sound_conditional ih t ts hk
  | function => exact sound_function ih t ts hk

theorem sound_operators (ih : SoundAt fuel) (place : Nat) (left : Expr) (l ts : List Token)
    (hl : Spells (.expr left) l) :
    WhenClean (operators (fuel + 1) place left) ts fun e rest =>
      Reads ts rest fun a => Spells (.expr e) (l ++ a) := by
  have hstop : Reads ts ts fun a => Spells (.expr left) (l ++ a) :=
    ⟨[], rfl, by simpa using hl⟩
  cases ts with
  | nil => exact .of_eq (operators_nil fuel place left) (whenClean_pure hstop)
  | cons t ts =>
    by_cases hb : place < t.kind.binding
    · by_cases ht : t.kind = .openParen
      · refine .of_eq (operators_call fuel place hb ht) ?_
        refine WhenClean.bind (ih.callFrom t left l ts ht hl) fun e' ts₁ h₁ => ?_
        obtain ⟨a, rfl, ha⟩ := h₁
        refine (ih.operators place e' _ ts₁ ha).mono fun e rest h => ?_
        obtain ⟨b, rfl, hb⟩ := h
        exact ⟨t :: (a ++ b), by simp, by simpa using hb⟩
      · -- whatever the right operand was read as, the text so far is one of the new left operand
        refine .of_eq (operators_binary fuel place hb ht) ?_
        refine WhenClean.bind (ih.expression _ ts) fun right ts₁ h₁ => ?_
        obtain ⟨a, rfl, ha⟩ := h₁
        have hop : t.kind.isInfix = true := isInfix_of_binding (by omega) ht
        refine (ih.operators place _ _ ts₁ (.binary hl hop ha)).mono fun e rest h => ?_
        obtain ⟨b, rfl, hb⟩ := h
        exact ⟨t :: (a ++ b), by simp, by simpa using hb⟩
    · exact .of_eq (operators_stop fuel place hb) (whenClean_pure hstop)

theorem sound_callFrom (ih : SoundAt fuel) (t : Token) (callee : Expr) (l ts : List Token)
    (ht : t.kind = .openParen) (hl : Spells (.expr callee) l) :
    WhenClean (callFrom (fuel + 1) t callee) ts fun e rest =>
      Reads ts rest fun a => Spells (.expr e) (l ++ t :: a) := by
  refine whenClean_take?_bind (fun p rest h hp => ?_) ?_
  · exact whenClean_pure ⟨[p], h, .call hl ht .noArguments hp⟩
  · refine WhenClean.bind (ih.expression _ ts) fun first ts₁ h₁ => ?_
    obtain ⟨a, rfl, ha⟩ := h₁
    refine WhenClean.bind (ih.moreArguments ts₁) fun more ts₂ h₂ => ?_
    obtain ⟨b, rfl, hb⟩ := h₂
    have hargs : Spells (.arguments (first :: more)) (a ++ b) := hb first a ha
    -- the holes that would be dropped from the arguments come with a diagnostic
    refine whenClean_expecting fun p rest h hp => whenClean_pure ?_
    rw [filter_isPresent_of_spells hargs]
    exact ⟨a ++ b ++ [p], by rw [h]; simp, .call hl ht hargs hp⟩

theorem sound_moreArguments (ih : SoundAt fuel) (ts : List Token) :
    WhenClean (moreArguments (fuel + 1)) ts fun es rest =>
      Reads ts rest fun a => ∀ e l, Spells (.expr e) l →
        Spells (.arguments (e :: es)) (l ++ a) := by
  refine whenClean_take?_bind (fun c ts₁ h₁ hc => ?_) ?_
  · refine WhenClean.bind (ih.expression _ ts₁) fun e ts₂ h₂ => ?_
    obtain ⟨a, rfl, ha⟩ := h₂
    refine WhenClean.bind (ih.moreArguments ts₂) fun more rest h => whenClean_pure ?_
    obtain ⟨b, rfl, hb⟩ := h
    exact ⟨c :: (a ++ b), by rw [h₁]; simp, fun e' l hl => .moreArguments hl hc (hb e a ha)⟩
  · exact whenClean_pure ⟨[], rfl, fun e l hl => by rw [List.append_nil]; exact .oneArgument hl⟩

theorem sound_blockFrom (ih : SoundAt fuel) (brace : Token) (ts : List Token)
    (hb : brace.kind = .openBrace) :
    WhenClean (blockFrom (fuel + 1) brace) ts fun b rest =>
      Reads ts rest fun a => Spells (.block b) (brace :: a) := by
  refine WhenClean.bind (ih.statementsToBrace ts) fun ss rest h => whenClean_pure ?_
  obtain ⟨c, hc, a, rfl, ha⟩ := h
  exact ⟨a ++ [c], by simp, .block hb ha hc⟩

theorem sound_statementsToBrace (ih : SoundAt fuel) (ts : List Token) :
    WhenClean (statementsToBrace (fuel + 1)) ts fun ss rest =>
      ∃ c, c.kind = .closeBrace ∧ Reads ts (c :: rest) (Spells (.stmts ss)) := by
  cases ts with
  | nil => exact .of_eq (statementsToBrace_nil fuel) (whenClean_report _ _ _ _)
  | cons t ts =>
    by_cases ht : t.kind = .closeBrace
    · exact .of_eq (statementsToBrace_close fuel ht)
        (whenClean_pure ⟨t, ht, [], rfl, .noStmts⟩)
    · refine .of_eq (statementsToBrace_cons fuel ht) ?_
      refine WhenClean.bind (ih.statementFrom t ts) fun s ts₁ h₁ => ?_
      obtain ⟨s', rfl, a, rfl, ha⟩ := h₁
      refine WhenClean.bind (ih.statementsToBrace ts₁) fun ss rest h => whenClean_pure ?_
      obtain ⟨c, hc, b, rfl, hb⟩ := h
      exact ⟨c, hc, t :: a ++ b, by simp, .moreStmts ha hb⟩

theorem sound_statementFrom (ih : SoundAt fuel) (t : Token) (ts : List Token) :
    WhenClean (statementFrom (fuel + 1) t) ts fun s rest =>
      ∃ s', s = some s' ∧ Reads ts rest fun a => Spells (.stmt s') (t :: a) := by
  simp only [statementFrom]
  split
  · next hk =>
    refine whenClean_expecting fun name ts₁ h₁ hn => whenClean_expecting fun eq ts₂ h₂ he => ?_
    refine WhenClean.bind (ih.expression _ ts₂) fun e ts₃ h₃ => ?_
    obtain ⟨a, rfl, ha⟩ := h₃
    refine WhenClean.bind (whenClean_take?_semicolon ts₃) fun _ rest h => whenClean_pure ?_
    obtain ⟨semi, rfl, hs⟩ := h
    subst h₁ h₂
    exact ⟨_, rfl, name :: eq :: (a ++ semi), by simp, .bind hk hn he ha hs⟩
  · next hk =>
    refine whenClean_take?_bind (fun semi rest h hs => ?_) ?_
    · exact whenClean_pure ⟨_, rfl, [semi], h, .retNothing hk hs⟩
    · refine WhenClean.bind (ih.expression _ ts) fun e ts₁ h₁ => ?_
      obtain ⟨a, rfl, ha⟩ := h₁
      refine WhenClean.bind (whenClean_take?_semicolon ts₁) fun _ rest h => whenClean_pure ?_
      obtain ⟨semi, rfl, hs⟩ := h
      exact ⟨_, rfl, a ++ semi, by simp, .ret hk ha hs⟩
  · refine WhenClean.bind (ih.expressionFrom _ t ts) fun e ts₁ h₁ => ?_
    obtain ⟨a, rfl, ha⟩ := h₁
    refine WhenClean.bind (whenClean_take?_semicolon ts₁) fun _ rest h => whenClean_pure ?_
    obtain ⟨semi, rfl, hs⟩ := h
    exact ⟨_, rfl, a ++ semi, by simp, .exprStmt ha hs⟩

/-! ## All functions together -/

theorem soundAt_all : ∀ fuel, SoundAt fuel := by
  intro fuel
  induction fuel with
  | zero => constructor <;> intros <;> exact whenClean_outOfFuel _ _
  | succ fuel ih =>
    exact ⟨sound_expression ih, sound_expressionFrom ih, sound_operand ih, sound_operators ih,
      sound_callFrom ih, sound_moreArguments ih, sound_blockFrom ih, sound_statementsToBrace ih,
      sound_statementFrom ih⟩

theorem sound_statementsToEnd : ∀ (fuel : Nat) (ts : List Token),
    WhenClean (statementsToEnd fuel) ts fun p rest => rest = [] ∧ Spells (.stmts p) ts := by
  intro fuel
  induction fuel with
  | zero => intro ts; exact whenClean_outOfFuel _ _
  | succ fuel ih =>
    intro ts
    cases ts with
    | nil => exact .of_eq (statementsToEnd_nil fuel) (whenClean_pure ⟨rfl, .noStmts⟩)
    | cons t ts =>
      refine .of_eq (statementsToEnd_cons fuel t ts) ?_
      refine WhenClean.bind ((soundAt_all fuel).statementFrom t ts) fun s ts₁ h₁ => ?_
      obtain ⟨s', rfl, a, rfl, ha⟩ := h₁
      refine WhenClean.bind (ih ts₁) fun ss rest h => whenClean_pure ?_
      exact ⟨h.1, .moreStmts ha h.2⟩

end LetLang.Parser

namespace LetLang

open Grammar LetLang.Parser

/-- A text without diagnostics is a text of the program that is made of it. -/
theorem Program.spells_tokens {src : Source} (h : (Program.ofSource src).2 = []) :
    Spells (.stmts (Program.ofSource src).1) src.tokens := by
  obtain ⟨⟨p, ds, rest⟩, hr, hparse⟩ := Program.parse_eq src.tokens
  simp only [Program.ofSource, hparse] at h ⊢
  subst h
  exact (sound_statementsToEnd _ _ p rest hr).2

end LetLang
