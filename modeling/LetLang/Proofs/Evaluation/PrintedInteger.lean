import LetLang.Proofs.Evaluation.Sequence
import LetLang.Proofs.Parser.PrintedForm

/-!
# Integers as texts

The text that an integer is shown as is a program again: digits, perhaps with a minus before them, and the value of
that program is the integer (`readsAsShown_iff`). There is one exception. A negative integer has no literal of its own,
it is the negation of a positive one, and the smallest integer is the negation of a number that is too large to be read.

Two number systems meet here. What is shown is the decimal form of a signed number, and what is read is a natural number
digit by digit; negation is that of 64-bit words.
-/

set_option autoImplicit false

namespace LetLang

open Grammar Eval
open Token (fixed)

/-! ## Decimal digits -/

theorem isNumeral_toString (n : Nat) : Token.IsNumeral (toString n) := by
  rw [Nat.toString_eq_repr]
  refine ⟨Nat.repr_ne_empty, ?_⟩
  intro c hc
  rw [Nat.toList_repr] at hc
  exact Nat.isDigit_of_mem_toDigits (by decide) (by decide) hc

/-- Reading digits undoes writing them. -/
theorem digitsValue_toString (n : Nat) : digitsValue (toString n) = n := by
  rw [Nat.toString_eq_repr, digitsValue, Nat.toList_repr]
  exact Nat.ofDigitChars_toDigits (by decide) (by decide)

/-! ## Shown and read -/

/-- The literal for a natural number. -/
def numberExpr (n : Nat) : Expr := .int ⟨.int, toString n⟩ (Int64.ofNat n)

theorem printed_number {n : Nat} (h : n ≤ maxInteger) (pos : Position) :
    Printed (.expr pos (numberExpr n)) (toString n) := by
  have hnumber := Renders.number (isNumeral_toString n) (by rwa [digitsValue_toString])
  rw [digitsValue_toString] at hnumber
  exact printed_token hnumber (by cases pos <;> rfl)

theorem printed_negative {n : Nat} (h : n ≤ maxInteger) :
    Printed (.expr .free (.unary (fixed .minus) "-" (numberExpr n))) ("-" ++ toString n) :=
  @printed_unary _ _ .minus rfl (printed_number h .operand)

/-- An integer can be read back: the text it is shown as has no diagnostics, and in any scope of any machine its value
is that integer. -/
structure ReadsAsShown (v : Int64) : Prop where
  clean : (Program.ofSource (.ofString (Value.int v).text)).2 = []
  evaluates : ∀ (m : Machine) (scope : ScopeId), ∃ m', m'.store = m.store ∧
    m.Evaluates {} scope (.program (Program.ofSource (.ofString (Value.int v).text)).1) (.int v) m'

theorem readsAsShown_of_printed {v : Int64} {e : Expr} (h : Printed (.expr .free e) (Value.int v).text)
    (hvalue : ∀ scope m, Yields {} (.expr scope e) m (.int v) m) : ReadsAsShown v := by
  obtain ⟨t, hprogram⟩ := Program.ofSource_printed h
  refine ⟨by rw [hprogram], fun m scope => ⟨Machine.checked { m with depth := 0 }, rfl, ?_⟩⟩
  have hstmt (m' : Machine) : Yields {} (.stmt scope (.expr t e)) m' (.int v) m' :=
    yields_iff.mpr (resolves_ask_done_iff.mpr (hvalue scope m'))
  rw [hprogram, Machine.evaluates_iff]
  exact (yields_program_cons_iff rfl).mpr ⟨.int v, _, hstmt _, .inr ⟨rfl, yields_nil_iff.mpr ⟨rfl, rfl⟩⟩⟩

theorem readsAsShown_natural {n : Nat} (h : n ≤ maxInteger) {v : Int64} (hv : v.toInt = n) : ReadsAsShown v := by
  have hprinted : Printed (.expr .free (numberExpr n)) (Value.int v).text := by
    rw [Value.text, hv]
    exact printed_number h .free
  have hword : Int64.ofNat n = v := by rw [← Int64.ofInt_eq_ofNat, ← hv, Int64.ofInt_toInt]
  subst hword
  exact readsAsShown_of_printed hprinted fun scope m => yields_iff.mpr .done

theorem readsAsShown_negative {n : Nat} (h : n + 1 ≤ maxInteger) {v : Int64} (hv : v.toInt = .negSucc n) :
    ReadsAsShown v := by
  have hprinted : Printed (.expr .free (.unary (fixed .minus) "-" (numberExpr (n + 1)))) (Value.int v).text := by
    rw [Value.text, hv]
    exact printed_negative h
  have hword : -Int64.ofNat (n + 1) = v := by
    have hneg : -((n + 1 : Nat) : Int) = .negSucc n := rfl
    rw [← Int64.ofInt_eq_ofNat, ← Int64.ofInt_neg, hneg, ← hv, Int64.ofInt_toInt]
  subst hword
  exact readsAsShown_of_printed hprinted fun scope m => yields_iff.mpr (.ask .done .done)

theorem diagnostics_minValue :
    (Program.ofSource (.ofString (Value.int Int64.minValue).text)).2 = [.tooLarge "9223372036854775808"] := by
  decide +kernel

/-- **Every integer but the smallest can be read back.** -/
theorem readsAsShown_iff (v : Int64) : ReadsAsShown v ↔ v ≠ Int64.minValue := by
  constructor
  · rintro h rfl
    exact absurd (diagnostics_minValue.symm.trans h.clean) (by simp)
  · intro hne
    have hlt := v.toInt_lt
    have hle := v.le_toInt
    have hmin : v.toInt ≠ -2 ^ 63 := fun heq => hne (Int64.toInt_inj.mp (heq.trans Int64.toInt_minValue.symm))
    cases hv : v.toInt with
    | ofNat n =>
      rw [hv, Int.ofNat_eq_natCast] at hlt
      exact readsAsShown_natural (by rw [maxInteger]; omega) hv
    | negSucc n =>
      rw [hv] at hle hmin
      exact readsAsShown_negative (by rw [maxInteger]; omega) hv

/-- The smallest integer is shown as a sign and a number that is too large to be read. -/
theorem not_readsAsShown_minValue : (Value.int Int64.minValue).text = "-9223372036854775808" ∧
    (Program.ofSource (.ofString "-9223372036854775808")).2 = [.tooLarge "9223372036854775808"] ∧
    ¬ ReadsAsShown Int64.minValue :=
  ⟨rfl, diagnostics_minValue, fun h => absurd (diagnostics_minValue.symm.trans h.clean) (by simp)⟩

end LetLang
