import LetLang.Proofs.Grammar.Leading
import LetLang.Proofs.Parser.Soundness
import LetLang.Proofs.Rendering

/-!
# Reading back what was written

The parser undoes every rendering. The question is where an expression stops, so what is proved of an
expression is not which result it gives but what reading it *comes to*: whoever reads `a ++ rest` in a place
of some binding power, where `a` is a rendering of `e`, goes on at `rest` with `e` as the operand to its left
(`Opens`). The operators of the place are not known yet at that point, which is why nested left operands need no
case of their own.

Two inequalities decide whether a bare expression may be read like this, one for each of its ends
(`Stands`): its own operator has to bind tighter than the place it is read in, and what follows it must not bind
tighter than the operator it ends with. The table of places where parentheses are needed is exactly what makes
both hold (`stands_of_fits`).
-/

set_option autoImplicit false

namespace LetLang.Parser

open Grammar
open Token (fixed)

/-! ## Steps with a known result -/

section
variable {α β : Type} {p : Parser α} {a : α} {ts rest : List Token}

/-- Whatever the step hands on is the value `a`, without diagnostics, and it leaves `rest`. -/
def Gives (p : Parser α) (ts : List Token) (a : α) (rest : List Token) : Prop :=
  Cleanly p ts fun v r => v = a ∧ r = rest

theorem Gives.eq (h : Gives p ts a rest) {r : Parsed α} (hr : p ts = some r) :
    r = ⟨a, [], rest⟩ := by
  obtain ⟨v, ds, us⟩ := r
  obtain ⟨rfl, rfl, rfl⟩ := h _ hr
  rfl

theorem Gives.bind {f : α → Parser β} {Q : β → List Token → Prop} (h : Gives p ts a rest)
    (hf : Cleanly (f a) rest Q) : Cleanly (p >>= f) ts Q := by
  refine Cleanly.bind h ?_
  rintro _ _ ⟨rfl, rfl⟩
  exact hf

theorem gives_pure (a : α) (ts : List Token) : Gives (pure a) ts a ts :=
  cleanly_pure ⟨rfl, rfl⟩

end

/-! ## What an expression comes to -/

/-- Reading an expression at the front of `ts`, in that place, comes to reading the operators that follow
`e` at the front of `rest`. -/
def Opens (place : Nat) (e : Expr) (ts rest : List Token) : Prop :=
  ∀ fuel r, expression fuel place ts = some r → ∃ fuel', operators fuel' place e rest = some r

/-- Where nothing that follows binds tighter than the place, the expression is all that is read. -/
theorem Opens.gives {place : Nat} {e : Expr} {ts rest : List Token} (h : Opens place e ts rest)
    (hb : (kindAhead rest).binding ≤ place) (fuel : Nat) :
    Gives (expression fuel place) ts e rest := by
  intro r hr
  obtain ⟨fuel', h'⟩ := h fuel r hr
  cases fuel' with
  | zero => exact absurd h' (by simp [operators, outOfFuel])
  | succ fuel' =>
    cases rest with
    | nil =>
      rw [operators_nil] at h'
      obtain rfl := Option.some.inj h'
      exact ⟨rfl, rfl, rfl⟩
    | cons t rest =>
      rw [operators_stop _ _ (Nat.not_lt.mpr hb)] at h'
      obtain rfl := Option.some.inj h'
      exact ⟨rfl, rfl, rfl⟩

/-- An operand that is read to its end leaves the operators that follow. -/
theorem opens_of_operand {place : Nat} {e : Expr} {t : Token} {ts rest : List Token}
    (form : OperandForm) (hform : t.kind.operandForm? = some form)
    (h : ∀ fuel, Gives (operand (fuel + 1) t form) ts e rest) : Opens place e (t :: ts) rest := by
  intro fuel r hr
  cases fuel with
  | zero => exact absurd hr (by simp [expression, outOfFuel])
  | succ fuel =>
    rw [expression_cons] at hr
    cases fuel with
    | zero => exact absurd hr (by simp [expressionFrom, outOfFuel])
    | succ fuel =>
      simp only [expressionFrom, hform] at hr
      obtain ⟨x, y, hx, hy, rfl⟩ := bind_eq_some.mp hr
      cases fuel with
      | zero => exact absurd hx (by simp [operand, outOfFuel])
      | succ fuel =>
        obtain rfl := (h fuel).eq hx
        exact ⟨_, hy⟩

/-- After the left operand stands an infix operator: the right operand is read in the operator's own
place, and what comes of both is the left operand of what follows. -/
theorem opens_binary {place : Nat} {t : Token} {l r : Expr} {ts us rest : List Token}
    (ht : t.kind.isInfix = true) (hplace : place < t.kind.binding)
    (hl : Opens place l ts (t :: us)) (hr : ∀ fuel, Gives (expression fuel t.kind.binding) us r rest) :
    Opens place (.binary t t.literal l r) ts rest := by
  intro fuel x hx
  obtain ⟨fuel', h'⟩ := hl fuel x hx
  cases fuel' with
  | zero => exact absurd h' (by simp [operators, outOfFuel])
  | succ fuel' =>
    have hne : t.kind ≠ .openParen := fun he => absurd ht (by rw [he]; decide)
    rw [operators_binary _ _ hplace hne] at h'
    obtain ⟨y, z, hy, hz, rfl⟩ := bind_eq_some.mp h'
    obtain rfl := (hr fuel').eq hy
    exact ⟨fuel', hz⟩

theorem opens_call {place : Nat} {t : Token} {f : Expr} {args : List Expr} {ts us rest : List Token}
    (ht : t.kind = .openParen) (hplace : place < Binding.call) (hf : Opens place f ts (t :: us))
    (hargs : ∀ fuel, Gives (callFrom fuel t f) us (.call t f args) rest) :
    Opens place (.call t f args) ts rest := by
  intro fuel x hx
  obtain ⟨fuel', h'⟩ := hf fuel x hx
  cases fuel' with
  | zero => exact absurd h' (by simp [operators, outOfFuel])
  | succ fuel' =>
    have hbind : place < t.kind.binding := by
      rw [ht]
      exact hplace
    rw [operators_call _ _ hbind ht] at h'
    obtain ⟨y, z, hy, hz, rfl⟩ := bind_eq_some.mp h'
    obtain rfl := (hargs fuel').eq hy
    exact ⟨fuel', hz⟩

/-! ## Precedences and binding powers -/

theorem binding_of_isInfix {op : Token.Kind} (h : op.isInfix = true) :
    op.binding = op.precedence ∧ 0 < op.precedence := by
  cases op <;> first | exact ⟨rfl, by decide⟩ | exact absurd h (by decide)

/-- Every infix operator is looser than a sign. -/
theorem precedence_lt_sign (op : Token.Kind) : op.precedence < Binding.sign := by
  cases op <;> decide

/-- What is known of the binding powers on both sides of a position: that of the place the expression is read
in, and that of the token after it. -/
def Fits : Position → Nat → Nat → Prop
  | .free, place, next => place = Binding.lowest ∧ next = Binding.lowest
  | .operand, place, next => place = Binding.sign ∧ next ≤ Binding.sign
  | .callee, place, next => place < Binding.call ∧ next = Binding.call
  | .left op, place, next => place < op.precedence ∧ next = op.precedence
  | .right op, place, next => place = op.precedence ∧ next ≤ op.precedence

/-- The operator of a bare expression is taken in that place. -/
def BeginsIn (place : Nat) : Expr → Prop
  | .binary t _ _ _ => place < t.kind.precedence
  | .call _ _ _ => place < Binding.call
  | _ => True

/-- A token of that binding power does not extend the last operand of a bare expression. -/
def EndsBefore (next : Nat) : Expr → Prop
  | .binary t _ _ _ => next ≤ t.kind.precedence
  | .unary _ _ _ => next ≤ Binding.sign
  | _ => True

/-- A bare expression stands between its place and what follows without losing either end. A conditional
would also take a following `else` for its own. -/
structure Stands (place : Nat) (e : Expr) (rest : List Token) : Prop where
  begins : BeginsIn place e
  ends : EndsBefore (kindAhead rest).binding e
  notElse : kindAhead rest ≠ .kwElse

theorem infix_of_renders {t : Token} {o : String} {l r : Expr} {a : List Token}
    (h : Renders (.bare (.binary t o l r)) a) : t.kind.isInfix = true := by
  cases h with
  | binary hop => exact hop

/-- **Parentheses are put where they are needed**: an expression that may stand bare keeps both ends. -/
theorem stands_of_fits {pos : Position} {place : Nat} {e : Expr} {a rest : List Token}
    (hbare : pos.needsParens e = false) (h : Renders (.bare e) a)
    (hfits : Fits pos place (kindAhead rest).binding) (helse : kindAhead rest ≠ .kwElse) :
    Stands place e rest := by
  -- An operator has two ends to lose, a sign only the one on its right and a call only the one on its
  -- left; everything else begins and ends with tokens of its own.
  cases e with
  | binary t o l r =>
    have hpos := (binding_of_isInfix (infix_of_renders h)).2
    cases pos with
    | free =>
      obtain ⟨rfl, hnext⟩ := hfits
      exact ⟨hpos, by simp [EndsBefore, hnext, Binding.lowest], helse⟩
    | operand | callee => exact absurd hbare (by simp [Position.needsParens])
    | left op =>
      have hle : op.precedence ≤ t.kind.precedence := by
        simpa [Position.needsParens] using hbare
      exact ⟨Nat.lt_of_lt_of_le hfits.1 hle, Nat.le_trans (Nat.le_of_eq hfits.2) hle, helse⟩
    | right op =>
      have hlt : op.precedence < t.kind.precedence := by
        simpa [Position.needsParens] using hbare
      exact ⟨Nat.lt_of_le_of_lt (Nat.le_of_eq hfits.1) hlt,
        Nat.le_trans hfits.2 (Nat.le_of_lt hlt), helse⟩
  | unary t o e =>
    refine ⟨trivial, ?_, helse⟩
    cases pos with
    | free => exact Nat.le_trans (Nat.le_of_eq hfits.2) (Nat.zero_le _)
    | operand => exact hfits.2
    | callee => exact absurd hbare (by simp [Position.needsParens])
    | left op => exact Nat.le_trans (Nat.le_of_eq hfits.2) (Nat.le_of_lt (precedence_lt_sign op))
    | right op => exact Nat.le_trans hfits.2 (Nat.le_of_lt (precedence_lt_sign op))
  | call t f args =>
    refine ⟨?_, trivial, helse⟩
    have hsign : Binding.sign < Binding.call := by decide
    cases pos with
    | free => exact Nat.lt_of_le_of_lt (Nat.le_of_eq hfits.1) (by decide)
    | operand => exact Nat.lt_of_le_of_lt (Nat.le_of_eq hfits.1) hsign
    | callee => exact hfits.1
    | left op => exact Nat.lt_trans hfits.1 (Nat.lt_trans (precedence_lt_sign op) hsign)
    | right op =>
      exact Nat.lt_of_le_of_lt (Nat.le_of_eq hfits.1) (Nat.lt_trans (precedence_lt_sign op) hsign)
  | _ => exact ⟨trivial, trivial, helse⟩

/-! ## What is read back -/

/-- What reading a rendering gives, whatever follows it. -/
def ReadBack : Item → List Token → Prop
  | .stmts ss, a =>
    (∀ fuel close rest, close.kind = .closeBrace →
      Gives (statementsToBrace fuel) (a ++ close :: rest) ss rest) ∧
    ∀ fuel, Gives (statementsToEnd fuel) a ss []
  | .stmt s, a => ∃ t b, a = t :: b ∧ t.kind ≠ .closeBrace ∧
    ∀ fuel rest, Gives (statementFrom fuel t) (b ++ rest) (some s) rest
  | .block body, a => ∃ o b, a = o :: b ∧ o.kind = .openBrace ∧
    ∀ fuel rest, Gives (blockFrom fuel o) (b ++ rest) body rest
  | .expr pos e, a => ∀ place rest, Fits pos place (kindAhead rest).binding →
    kindAhead rest ≠ .kwElse → Opens place e (a ++ rest) rest
  | .bare e, a => ∀ place rest, Stands place e rest → Opens place e (a ++ rest) rest
  | .arguments es, a => ∀ fuel t callee rest,
    Gives (callFrom fuel t callee) (a ++ fixed .closeParen :: rest) (.call t callee es) rest
  | .moreArguments es, a => ∀ fuel rest,
    Gives (moreArguments fuel) (a ++ fixed .closeParen :: rest) es (fixed .closeParen :: rest)

/-- A token that ends an expression wherever the expression stands free. -/
def Closes (t : Token) : Prop := t.kind.binding = Binding.lowest ∧ t.kind ≠ .kwElse

theorem closes_closeParen : Closes (fixed .closeParen) := ⟨rfl, by decide⟩

theorem closes_semicolon : Closes (fixed .semicolon) := ⟨rfl, by decide⟩

theorem closes_comma : Closes (fixed .comma) := ⟨rfl, by decide⟩

section
variable {e : Expr} {a : List Token}

theorem opens_free (h : ReadBack (.expr .free e) a) {t : Token} (ht : Closes t)
    (rest : List Token) : Opens Binding.lowest e (a ++ t :: rest) (t :: rest) :=
  h Binding.lowest (t :: rest) ⟨rfl, ht.1⟩ ht.2

/-- An expression that stands free is read up to the token that ends it. -/
theorem gives_free (h : ReadBack (.expr .free e) a) {t : Token} (ht : Closes t)
    (rest : List Token) (fuel : Nat) :
    Gives (expression fuel Binding.lowest) (a ++ t :: rest) e (t :: rest) :=
  (opens_free h ht rest).gives (Nat.le_of_eq ht.1) fuel

/-- A rendering starts with a token that can start an expression, and so with none of the others. -/
theorem head_of_renders {pos : Position} (h : Renders (.expr pos e) a) :
    ∃ t b, a = t :: b ∧ ∃ form, t.kind.operandForm? = some form := by
  have hspells : Spells (.expr e) a := h.spelled
  have hlead : Leads (After (· = [])) (a ++ []) := Derives.leads hspells.derives rfl
  rw [List.append_nil] at hlead
  obtain ⟨t, b, rfl⟩ := hlead.exists_cons
  exact ⟨t, b, rfl, hlead.head⟩

theorem head_ne_of_renders {pos : Position} (h : Renders (.expr pos e) a) {k : Token.Kind}
    (hk : k.operandForm? = none) (us : List Token) :
    ∀ t rest, a ++ us = t :: rest → t.kind ≠ k := by
  obtain ⟨t, b, rfl, form, hform⟩ := head_of_renders h
  intro t' rest heq
  obtain ⟨rfl, -⟩ := List.cons.inj heq
  rintro rfl
  exact absurd (hform.symm.trans hk) (by simp)

end

/-! ## Parameters -/

theorem moreParameters_comma (x : String) (ts : List Token) :
    moreParameters (fixed .comma :: nameToken x :: ts) =
      ⟨(moreParameters ts).value.map (occurrence x :: ·), (moreParameters ts).diagnostics,
        (moreParameters ts).rest⟩ := by
  rw [fixed, nameToken, moreParameters]
  rfl

/-- The names after the first one, each after a comma. -/
theorem moreParameters_names (xs : List String) (rest : List Token) :
    moreParameters (xs.flatMap (fun x => [fixed .comma, nameToken x]) ++ fixed .closeParen :: rest) =
      ⟨some (xs.map occurrence), [], rest⟩ := by
  induction xs with
  | nil => rfl
  | cons x xs ih =>
    rw [List.flatMap_cons, List.append_assoc, List.cons_append, List.cons_append, List.nil_append,
      moreParameters_comma, ih]
    rfl

theorem parameters_name (x : String) (ts : List Token) :
    parameters (nameToken x :: ts) =
      some ⟨(moreParameters ts).value.map (occurrence x :: ·), (moreParameters ts).diagnostics,
        (moreParameters ts).rest⟩ := rfl

theorem parameterTokens_cons (x : String) (xs : List String) :
    parameterTokens (x :: xs) =
      nameToken x :: xs.flatMap fun x => [fixed .comma, nameToken x] := by
  induction xs generalizing x with
  | nil => rfl
  | cons y ys ih => exact congrArg (nameToken x :: fixed .comma :: ·) (ih y)

theorem gives_parameters (xs : List String) (rest : List Token) :
    Gives parameters (parameterTokens xs ++ fixed .closeParen :: rest) (some (xs.map occurrence))
      rest := by
  intro r hr
  cases xs with
  | nil =>
    obtain rfl := Option.some.inj hr
    exact ⟨rfl, rfl, rfl⟩
  | cons x xs =>
    rw [parameterTokens_cons, List.cons_append, parameters_name, moreParameters_names] at hr
    obtain rfl := Option.some.inj hr
    exact ⟨rfl, rfl, rfl⟩

/-! ## One rule at a time -/

/-- A block in braces, and what is made of it. -/
theorem gives_block {α : Type} {body : Block} {b : List Token} (h : ReadBack (.block body) b)
    {o : α} {next : Block → Parser α} {Q : α → List Token → Prop} (fuel : Nat) (rest : List Token)
    (hnext : Cleanly (next body) rest Q) :
    Cleanly (expecting .openBrace o fun brace => blockFrom fuel brace >>= next) (b ++ rest) Q := by
  obtain ⟨brace, b, rfl, hk, hb⟩ := h
  exact cleanly_expecting hk ((hb fuel rest).bind hnext)

theorem readBack_parens {pos : Position} {e : Expr} {a : List Token}
    (h : ReadBack (.expr .free e) a) :
    ReadBack (.expr pos e) (fixed .openParen :: (a ++ [fixed .closeParen])) := by
  intro place rest _ _
  rw [List.cons_append, List.append_assoc]
  refine opens_of_operand .group rfl fun fuel => ?_
  exact (gives_free h closes_closeParen rest fuel).bind (cleanly_expecting rfl (gives_pure _ _))

theorem readBack_unary {op : Token.Kind} {e : Expr} {a : List Token} (hop : op.isSign = true)
    (h : ReadBack (.expr .operand e) a) :
    ReadBack (.bare (.unary (fixed op) op.spelling e)) (fixed op :: a) := by
  intro place rest hs
  have hform : op.operandForm? = some .signed := by
    cases op <;> first | rfl | exact absurd hop (by decide)
  refine opens_of_operand _ hform fun fuel => ?_
  have he := (h Binding.sign rest ⟨rfl, hs.ends⟩ hs.notElse).gives hs.ends fuel
  exact he.bind (gives_pure _ _)

theorem readBack_binary {op : Token.Kind} {l r : Expr} {a b : List Token} (hop : op.isInfix = true)
    (hl : ReadBack (.expr (.left op) l) a) (hr : ReadBack (.expr (.right op) r) b) :
    ReadBack (.bare (.binary (fixed op) op.spelling l r)) (a ++ fixed op :: b) := by
  intro place rest hs
  have hplace : place < op.precedence := hs.begins
  have hnext : (kindAhead rest).binding ≤ op.precedence := hs.ends
  have hprec := (binding_of_isInfix hop).1
  rw [List.append_assoc, List.cons_append]
  -- the left operand is read in the place of the whole, the right one in that of the operator
  have hleft : Opens place l (a ++ fixed op :: (b ++ rest)) (fixed op :: (b ++ rest)) := by
    refine hl place _ ⟨hplace, hprec⟩ ?_
    rintro (rfl : op = .kwElse)
    exact absurd hop (by decide)
  have hright := hr op.binding rest ⟨hprec, hnext⟩ hs.notElse
  rw [← hprec] at hplace hnext
  exact opens_binary (t := fixed op) hop hplace hleft (hright.gives hnext)

theorem readBack_call {f : Expr} {args : List Expr} {a b : List Token}
    (hf : ReadBack (.expr .callee f) a) (hargs : ReadBack (.arguments args) b) :
    ReadBack (.bare (.call (fixed .openParen) f args))
      (a ++ fixed .openParen :: (b ++ [fixed .closeParen])) := by
  intro place rest hs
  rw [List.append_assoc, List.cons_append, List.append_assoc]
  refine opens_call rfl hs.begins ?_ fun fuel => hargs fuel _ f rest
  exact hf place _ ⟨hs.begins, rfl⟩ nofun

theorem readBack_ifThen {c : Expr} {body : Block} {a b : List Token}
    (hc : ReadBack (.expr .free c) a) (hb : ReadBack (.block body) b) :
    ReadBack (.bare (.ifThen (fixed .kwIf) c body))
      (fixed .kwIf :: fixed .openParen :: (a ++ fixed .closeParen :: b)) := by
  intro place rest hs
  simp only [List.cons_append, List.append_assoc]
  refine opens_of_operand .conditional rfl fun fuel => ?_
  refine cleanly_expecting rfl ((gives_free hc closes_closeParen (b ++ rest) fuel).bind ?_)
  refine cleanly_expecting rfl (gives_block hb fuel rest ?_)
  refine cleanly_take?_none ?_ (gives_pure _ _)
  rintro t us rfl
  exact hs.notElse

theorem readBack_ifElse {c : Expr} {body other : Block} {a b b' : List Token}
    (hc : ReadBack (.expr .free c) a) (hb : ReadBack (.block body) b)
    (hb' : ReadBack (.block other) b') :
    ReadBack (.bare (.ifElse (fixed .kwIf) c body other))
      (fixed .kwIf :: fixed .openParen ::
        (a ++ fixed .closeParen :: (b ++ fixed .kwElse :: b'))) := by
  intro place rest _
  simp only [List.cons_append, List.append_assoc]
  refine opens_of_operand .conditional rfl fun fuel => ?_
  refine cleanly_expecting rfl ((gives_free hc closes_closeParen _ fuel).bind ?_)
  refine cleanly_expecting rfl (gives_block hb fuel _ ?_)
  exact cleanly_take?_some rfl (gives_block hb' fuel rest (gives_pure _ _))

theorem readBack_fn {xs : List String} {body : Block} {b : List Token}
    (hb : ReadBack (.block body) b) :
    ReadBack (.bare (.fn (fixed .kwFn) (xs.map occurrence) body))
      (fixed .kwFn :: fixed .openParen :: (parameterTokens xs ++ fixed .closeParen :: b)) := by
  intro place rest _
  simp only [List.cons_append, List.append_assoc]
  refine opens_of_operand .function rfl fun fuel => ?_
  refine cleanly_expecting rfl ((gives_parameters xs (b ++ rest)).bind ?_)
  exact gives_block hb fuel rest (gives_pure _ _)

/-- A single token that is an operand of its own. -/
theorem readBack_token {t : Token} {form : OperandForm} {e : Expr}
    (hform : t.kind.operandForm? = some form)
    (h : ∀ fuel ts, operand (fuel + 1) t form ts = some ⟨e, [], ts⟩) : ReadBack (.bare e) [t] := by
  intro place rest _
  refine opens_of_operand _ hform fun fuel => ?_
  exact Cleanly.of_eq (q := pure e) (h fuel rest) (gives_pure e rest)

theorem operand_number {d : String} (h : digitsValue d ≤ maxInteger) (fuel : Nat)
    (ts : List Token) : operand (fuel + 1) ⟨.int, d⟩ .number ts =
      some ⟨.int ⟨.int, d⟩ (Int64.ofNat (digitsValue d)), [], ts⟩ := by
  simp only [operand, integer?_of_le h]
  rfl

/-! ### Lists of arguments -/

theorem readBack_noArguments : ReadBack (.arguments []) [] := by
  intro fuel t callee rest
  cases fuel with
  | zero => exact cleanly_outOfFuel _ _
  | succ fuel => exact cleanly_take?_some rfl (gives_pure _ _)

/-- What is rendered is never a hole, so no argument is dropped. -/
theorem filter_isPresent_of_renders {es : List Expr} {a : List Token}
    (h : Renders (.arguments es) a) : es.filter Expr.isPresent = es :=
  filter_isPresent_of_spells (h.spelled : Spells (.arguments es) a)

/-- After an argument stands a comma or the parenthesis that closes the call. -/
theorem moreArguments_head {es : List Expr} {b : List Token} (h : Renders (.moreArguments es) b)
    (rest : List Token) : ∃ t us, b ++ fixed .closeParen :: rest = t :: us ∧ Closes t := by
  cases h with
  | noMoreArguments => exact ⟨_, _, rfl, closes_closeParen⟩
  | oneMoreArgument => exact ⟨_, _, rfl, closes_comma⟩

theorem gives_argument {e : Expr} {es : List Expr} {a b : List Token}
    (he : ReadBack (.expr .free e) a) (hes : Renders (.moreArguments es) b) (fuel : Nat)
    (rest : List Token) :
    Gives (expression fuel Binding.lowest) (a ++ (b ++ fixed .closeParen :: rest)) e
      (b ++ fixed .closeParen :: rest) := by
  obtain ⟨t, us, heq, ht⟩ := moreArguments_head hes rest
  rw [heq]
  exact gives_free he ht us fuel

theorem readBack_someArguments {e : Expr} {es : List Expr} {a b : List Token}
    (he : Renders (.expr .free e) a) (hes : Renders (.moreArguments es) b)
    (ihe : ReadBack (.expr .free e) a) (ihes : ReadBack (.moreArguments es) b) :
    ReadBack (.arguments (e :: es)) (a ++ b) := by
  intro fuel t callee rest
  rw [List.append_assoc]
  cases fuel with
  | zero => exact cleanly_outOfFuel _ _
  | succ fuel =>
    refine cleanly_take?_none (head_ne_of_renders he rfl _) ?_
    refine (gives_argument ihe hes fuel rest).bind ((ihes fuel rest).bind ?_)
    refine cleanly_expecting rfl ?_
    rw [filter_isPresent_of_renders (.someArguments he hes)]
    exact gives_pure _ _

theorem readBack_noMoreArguments : ReadBack (.moreArguments []) [] := by
  intro fuel rest
  cases fuel with
  | zero => exact cleanly_outOfFuel _ _
  | succ fuel =>
    refine cleanly_take?_none ?_ (gives_pure _ _)
    rintro t us heq
    obtain ⟨rfl, -⟩ := List.cons.inj heq
    exact nofun

theorem readBack_oneMoreArgument {e : Expr} {es : List Expr} {a b : List Token}
    (hes : Renders (.moreArguments es) b) (ihe : ReadBack (.expr .free e) a)
    (ihes : ReadBack (.moreArguments es) b) :
    ReadBack (.moreArguments (e :: es)) (fixed .comma :: (a ++ b)) := by
  intro fuel rest
  rw [List.cons_append, List.append_assoc]
  cases fuel with
  | zero => exact cleanly_outOfFuel _ _
  | succ fuel =>
    refine cleanly_take?_some rfl ((gives_argument ihe hes fuel rest).bind ?_)
    exact (ihes fuel rest).bind (gives_pure _ _)

/-! ### Statements -/

/-- The semicolon that ends a statement, and the statement. -/
theorem gives_semicolon {α : Type} (a : α) (rest : List Token) :
    Gives (take? .semicolon >>= fun _ => pure a) (fixed .semicolon :: rest) a rest :=
  cleanly_take?_some rfl (gives_pure _ _)

theorem readBack_bind {x : String} {e : Expr} {a : List Token} (h : ReadBack (.expr .free e) a) :
    ReadBack (.stmt (.bind (fixed .kwLet) (occurrence x) e))
      (fixed .kwLet :: nameToken x :: fixed .assign :: (a ++ [fixed .semicolon])) := by
  refine ⟨_, _, rfl, by decide, fun fuel rest => ?_⟩
  simp only [List.cons_append, List.append_assoc]
  cases fuel with
  | zero => exact cleanly_outOfFuel _ _
  | succ fuel =>
    refine cleanly_expecting rfl (cleanly_expecting rfl ?_)
    exact (gives_free h closes_semicolon rest fuel).bind (gives_semicolon _ _)

theorem readBack_retNothing : ReadBack (.stmt (.ret (fixed .kwReturn) .missing))
    [fixed .kwReturn, fixed .semicolon] := by
  refine ⟨_, _, rfl, by decide, fun fuel rest => ?_⟩
  cases fuel with
  | zero => exact cleanly_outOfFuel _ _
  | succ fuel => exact cleanly_take?_some rfl (gives_pure _ _)

theorem readBack_ret {e : Expr} {a : List Token} (he : Renders (.expr .free e) a)
    (h : ReadBack (.expr .free e) a) :
    ReadBack (.stmt (.ret (fixed .kwReturn) e))
      (fixed .kwReturn :: (a ++ [fixed .semicolon])) := by
  refine ⟨_, _, rfl, by decide, fun fuel rest => ?_⟩
  rw [List.append_assoc]
  cases fuel with
  | zero => exact cleanly_outOfFuel _ _
  | succ fuel =>
    refine cleanly_take?_none (head_ne_of_renders he rfl _) ?_
    exact (gives_free h closes_semicolon rest fuel).bind (gives_semicolon _ _)

/-- An expression as a statement, up to a token that ends it or to the end of the tokens. -/
theorem gives_exprStmt {t : Token} {e : Expr} {a rest rest' : List Token}
    (he : Renders (.expr .free e) (t :: a)) (h : ReadBack (.expr .free e) (t :: a))
    (hrest : (kindAhead rest).binding = Binding.lowest) (helse : kindAhead rest ≠ .kwElse)
    (hend : Gives (take? .semicolon >>= fun _ => pure (some (Stmt.expr t e))) rest (some (.expr t e)) rest')
    (fuel : Nat) : Gives (statementFrom fuel t) (a ++ rest) (some (.expr t e)) rest' := by
  have hne : ∀ k : Token.Kind, k.operandForm? = none → t.kind ≠ k := fun k hk =>
    head_ne_of_renders he hk [] t (a ++ []) rfl
  cases fuel with
  | zero => exact cleanly_outOfFuel _ _
  | succ fuel =>
    simp only [statementFrom]
    split
    · next hk => exact absurd hk (hne _ rfl)
    · next hk => exact absurd hk (hne _ rfl)
    · -- the first token is taken already, so the expression is read with one unit of fuel more
      have hfrom : Gives (expressionFrom fuel Binding.lowest t) (a ++ rest) e rest :=
        Cleanly.of_eq (expression_cons fuel Binding.lowest t _).symm
          ((h Binding.lowest rest ⟨rfl, hrest⟩ helse).gives (Nat.le_of_eq hrest) (fuel + 1))
      exact hfrom.bind hend

theorem readBack_exprStmt {t : Token} {e : Expr} {a : List Token}
    (he : Renders (.expr .free e) (t :: a)) (h : ReadBack (.expr .free e) (t :: a)) :
    ReadBack (.stmt (.expr t e)) (t :: (a ++ [fixed .semicolon])) := by
  refine ⟨_, _, rfl, head_ne_of_renders he rfl [] t (a ++ []) rfl, fun fuel rest => ?_⟩
  rw [List.append_assoc]
  refine gives_exprStmt he h ?_ ?_ (gives_semicolon _ _) fuel
  · exact closes_semicolon.1
  · exact closes_semicolon.2

/-- One statement, and those up to the end. -/
theorem gives_statementsToEnd {s : Stmt} {ss : List Stmt} {t : Token} {ts rest : List Token}
    (hs : ∀ fuel, Gives (statementFrom fuel t) ts (some s) rest)
    (hss : ∀ fuel, Gives (statementsToEnd fuel) rest ss []) (fuel : Nat) :
    Gives (statementsToEnd fuel) (t :: ts) (s :: ss) [] := by
  cases fuel with
  | zero => exact cleanly_outOfFuel _ _
  | succ fuel =>
    refine .of_eq (statementsToEnd_cons fuel t _) ?_
    exact (hs fuel).bind ((hss fuel).bind (gives_pure _ _))

theorem readBack_noStmts : ReadBack (.stmts []) [] := by
  refine ⟨fun fuel close rest hc => ?_, fun fuel => ?_⟩
  · cases fuel with
    | zero => exact cleanly_outOfFuel _ _
    | succ fuel =>
      rw [List.nil_append]
      exact .of_eq (q := pure []) (statementsToBrace_close fuel hc) (gives_pure [] rest)
  · cases fuel with
    | zero => exact cleanly_outOfFuel _ _
    | succ fuel => exact .of_eq (statementsToEnd_nil fuel) (gives_pure [] [])

theorem readBack_moreStmts {s : Stmt} {ss : List Stmt} {a b : List Token}
    (hs : ReadBack (.stmt s) a) (hss : ReadBack (.stmts ss) b) :
    ReadBack (.stmts (s :: ss)) (a ++ b) := by
  obtain ⟨t, a, rfl, ht, hs⟩ := hs
  refine ⟨fun fuel close rest hc => ?_, fun fuel => ?_⟩
  · cases fuel with
    | zero => exact cleanly_outOfFuel _ _
    | succ fuel =>
      rw [List.append_assoc]
      refine .of_eq (statementsToBrace_cons fuel ht) ?_
      exact (hs fuel _).bind ((hss.1 fuel close rest hc).bind (gives_pure _ _))
  · exact gives_statementsToEnd (fun fuel => hs fuel b) hss.2 fuel

theorem readBack_block {ss : List Stmt} {a : List Token} (h : ReadBack (.stmts ss) a) :
    ReadBack (.block (.mk (fixed .openBrace) ss))
      (fixed .openBrace :: (a ++ [fixed .closeBrace])) := by
  refine ⟨_, _, rfl, rfl, fun fuel rest => ?_⟩
  rw [List.append_assoc]
  cases fuel with
  | zero => exact cleanly_outOfFuel _ _
  | succ fuel => exact (h.1 fuel _ rest rfl).bind (gives_pure _ _)

/-! ## All rules together -/

theorem readBack_of_renders {item : Item} {ts : List Token} (h : Renders item ts) :
    ReadBack item ts := by
  induction h with
  | noStmts => exact readBack_noStmts
  | moreStmts _ _ ihs ihss => exact readBack_moreStmts ihs ihss
  | bind _ _ ih => exact readBack_bind ih
  | retNothing => exact readBack_retNothing
  | ret he ih => exact readBack_ret he ih
  | exprStmt he ih => exact readBack_exprStmt he ih
  | block _ ih => exact readBack_block ih
  | plain hbare h ih =>
    exact fun place rest hfits helse => ih place rest (stands_of_fits hbare h hfits helse)
  | parens _ ih => exact readBack_parens ih
  | name => exact readBack_token rfl fun _ _ => rfl
  | number _ hle => exact readBack_token rfl (operand_number hle)
  | @truth b => cases b <;> exact readBack_token rfl fun _ _ => rfl
  | unary hop _ ih => exact readBack_unary hop ih
  | binary hop _ _ ihl ihr => exact readBack_binary hop ihl ihr
  | ifThen _ _ ihc ihb => exact readBack_ifThen ihc ihb
  | ifElse _ _ _ ihc ihb ihb' => exact readBack_ifElse ihc ihb ihb'
  | fn _ _ ihb => exact readBack_fn ihb
  | call _ _ ihf iha => exact readBack_call ihf iha
  | noArguments => exact readBack_noArguments
  | someArguments he hes ihe ihes => exact readBack_someArguments he hes ihe ihes
  | noMoreArguments => exact readBack_noMoreArguments
  | oneMoreArgument _ hes ihe ihes => exact readBack_oneMoreArgument hes ihe ihes

/-- The last statement needs no semicolon: an expression may stand at the end of the tokens. -/
theorem gives_lastExpr {t : Token} {e : Expr} {a : List Token} (h : Renders (.expr .free e) (t :: a))
    (fuel : Nat) : Gives (statementsToEnd fuel) (t :: a) [.expr t e] [] := by
  have hfrom := @gives_exprStmt t e a [] [] h (readBack_of_renders h) rfl (by decide)
    (cleanly_take?_none nofun (gives_pure _ _))
  rw [List.append_nil] at hfrom
  exact gives_statementsToEnd hfrom readBack_noStmts.2 fuel

end LetLang.Parser

namespace LetLang

open Grammar LetLang.Parser
open Token (fixed)

theorem Program.parse_of_gives {ts : List Token} {p : Program}
    (h : ∀ fuel, Gives (statementsToEnd fuel) ts p []) : Program.parse ts = (p, []) := by
  obtain ⟨r, hr, hparse⟩ := Program.parse_eq ts
  obtain rfl := (h _).eq hr
  exact hparse

/-- **Reading undoes writing.** A program that is written down with parentheses wherever they are needed, and
perhaps elsewhere, with a semicolon after every statement and a space between any two tokens, is read as
itself and without diagnostics. -/
theorem ofSource_spaced {p : Program} {ts : List Token} (h : Renders (.stmts p) ts) :
    Program.ofSource (Token.spaced ts) = (p, []) := by
  obtain ⟨r, hr, hparse⟩ := Program.parse_eq ts
  obtain rfl := ((readBack_of_renders h).2 _).eq hr
  rw [Program.ofSource, Token.tokens_spaced h.lexical, hparse]

/-- A difference on the right keeps its parentheses; a negated call, which binds tighter than the product it
stands in, needs none. -/
theorem ofSource_spaced_difference :
    ∃ ts, Token.spaced ts = Source.ofString "a - ( b - c ) * - f ( 1 , ! d ) ;" ∧
      Program.ofSource (Token.spaced ts) =
        ([.expr (nameToken "a") (.binary (fixed .minus) "-" (.ident (occurrence "a"))
          (.binary (fixed .asterisk) "*"
            (.binary (fixed .minus) "-" (.ident (occurrence "b")) (.ident (occurrence "c")))
            (.unary (fixed .minus) "-" (.call (fixed .openParen) (.ident (occurrence "f"))
              [.int ⟨.int, "1"⟩ 1, .unary (fixed .bang) "!" (.ident (occurrence "d"))]))))], []) := by
  have hname (x : String) (pos : Position) (hx : Token.IsName x) :
      Renders (.expr pos (.ident (occurrence x))) [nameToken x] := by
    cases pos <;> exact .plain rfl (.name hx)
  have hdifference (pos : Position) : Renders
      (.expr pos (.binary (fixed .minus) "-" (.ident (occurrence "b")) (.ident (occurrence "c")))) _ :=
    .parens (.plain rfl (.binary rfl (hname "b" _ (by decide +kernel))
      (hname "c" _ (by decide +kernel))))
  have harguments : Renders (.arguments
      [.int ⟨.int, "1"⟩ 1, .unary (fixed .bang) "!" (.ident (occurrence "d"))]) _ :=
    .someArguments (.plain rfl (.number (d := "1") (by decide +kernel) (by decide +kernel)))
      (.oneMoreArgument (.plain rfl (.unary rfl (hname "d" _ (by decide +kernel)))) .noMoreArguments)
  have hcall : Renders (.expr .operand (.call (fixed .openParen)
      (.ident (occurrence "f")) _)) _ :=
    .plain rfl (.call (hname "f" _ (by decide +kernel)) harguments)
  refine ⟨_, ?_, ofSource_spaced (.moreStmts (.exprStmt (.plain rfl (.binary rfl
    (hname "a" _ (by decide +kernel)) (.plain rfl (.binary rfl (hdifference _)
      (.plain rfl (.unary rfl hcall))))))) .noStmts)⟩
  decide +kernel

end LetLang
