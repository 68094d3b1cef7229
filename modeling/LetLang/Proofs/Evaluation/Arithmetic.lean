import LetLang.Proofs.Evaluation.Plan
import Mathlib.Data.Int.ModEq

/-!
# Wrapping around once

Integers wrap around at every operator. For sums, differences, products and the minus sign this is the same as to compute
with numbers of any size and to wrap around once, at the end (`expr_wraps`): taking an integer to its 64-bit word
(`Int64.ofInt`) is a homomorphism of rings, so the words of the operands determine the word of the result.

Division is not like that. The words of two numbers do not determine the word of their quotient, so there is nothing to be
said about whole expressions, and each quotient is that of the two words as signed numbers. The only one that does not fit
is the smallest integer divided by -1, and it wraps around to the smallest integer.
-/

set_option autoImplicit false

namespace LetLang

/-! ## Words -/

/-- A number has exactly one word that is congruent to it. -/
theorem toInt_modEq_iff {n : Int64} {z : Int} : n.toInt ≡ z [ZMOD 2 ^ 64] ↔ n = Int64.ofInt z := by
  constructor
  · intro h
    obtain ⟨k, hk⟩ := h.dvd
    have hz : z = n.toInt + 2 ^ 64 * k := by omega
    have hzero : Int64.ofInt (2 ^ 64) = 0 := rfl
    rw [hz, Int64.ofInt_add, Int64.ofInt_mul, Int64.ofInt_toInt, hzero, Int64.zero_mul, Int64.add_zero]
  · rintro rfl
    rw [Int64.toInt_ofInt]
    exact Int.bmod_emod

/-- Division of words is that of signed numbers, cut off toward zero and wrapped around. -/
theorem ofInt_tdiv_toInt (a b : Int64) : Int64.ofInt (a.toInt.tdiv b.toInt) = a / b := by
  symm
  rw [← toInt_modEq_iff, Int64.toInt_div]
  exact Int.bmod_emod

/-! ## Arithmetic expressions -/

/-- The number that an arithmetic expression stands for, when integers are as large as need be: an expression of literals,
names that are bound to integers, minus signs, sums, differences and products. -/
inductive Expr.Denotes (bound : String → Option Value) : Expr → Int → Prop where
  | literal (t : Token) (n : Int64) : Denotes bound (.int t n) n.toInt
  | name {x : Ident} {n : Int64} : bound x.name = some (.int n) → Denotes bound (.ident x) n.toInt
  | negation {e : Expr} {z : Int} (t : Token) : Denotes bound e z → Denotes bound (.unary t "-" e) (-z)
  | sum {l r : Expr} {y z : Int} (t : Token) : Denotes bound l y → Denotes bound r z →
      Denotes bound (.binary t "+" l r) (y + z)
  | difference {l r : Expr} {y z : Int} (t : Token) : Denotes bound l y → Denotes bound r z →
      Denotes bound (.binary t "-" l r) (y - z)
  | product {l r : Expr} {y z : Int} (t : Token) : Denotes bound l y → Denotes bound r z →
      Denotes bound (.binary t "*" l r) (y * z)

namespace Eval

section
variable {limits : Limits} {scope : ScopeId} {m m₁ m₂ : Machine} {t : Token} {op : String} {a b : Int64}

theorem yields_unary_int {e : Expr} (h : Yields limits (.expr scope e) m (.int a) m₁) :
    Yields limits (.expr scope (.unary t op e)) m ((Value.int a).unary op) m₁ := by
  rw [yields_iff] at h ⊢
  exact .ask h .done

theorem yields_binary_int {l r : Expr} (hl : Yields limits (.expr scope l) m (.int a) m₁)
    (hr : Yields limits (.expr scope r) m₁ (.int b) m₂) :
    Yields limits (.expr scope (.binary t op l r)) m (Value.arith op a b) m₂ := by
  rw [yields_iff] at hl hr ⊢
  exact .ask hl (.ask hr .done)

/-- **An arithmetic expression yields the word of the number that it stands for**, and does nothing else. -/
theorem yields_of_denotes {e : Expr} {z : Int} (h : e.Denotes (m.store.get? scope) z) :
    Yields limits (.expr scope e) m (.int (Int64.ofInt z)) m := by
  induction h with
  | literal t n =>
    rw [Int64.ofInt_toInt]
    exact yields_iff.mpr .done
  | @name x n hx =>
    rw [Int64.ofInt_toInt, yields_iff]
    simp only [Task.plan, Task.planExpr, hx, Option.getD_some]
    exact .done
  | negation t _ ih =>
    rw [Int64.ofInt_neg]
    exact yields_unary_int ih
  | sum t _ _ ihl ihr =>
    rw [Int64.ofInt_add]
    exact yields_binary_int ihl ihr
  | difference t _ _ ihl ihr =>
    rw [Int64.ofInt_sub]
    exact yields_binary_int ihl ihr
  | product t _ _ ihl ihr =>
    rw [Int64.ofInt_mul]
    exact yields_binary_int ihl ihr

theorem yields_quotient {l r : Expr} (hb : b ≠ 0) (hl : Yields limits (.expr scope l) m (.int a) m₁)
    (hr : Yields limits (.expr scope r) m₁ (.int b) m₂) :
    Yields limits (.expr scope (.binary t "/" l r)) m (.int (a / b)) m₂ := by
  have hvalue : Value.arith "/" a b = .int (a / b) := if_neg hb
  rw [← hvalue]
  exact yields_binary_int hl hr

theorem yields_division_by_zero {l r : Expr} (hl : Yields limits (.expr scope l) m (.int a) m₁)
    (hr : Yields limits (.expr scope r) m₁ (.int 0) m₂) :
    Yields limits (.expr scope (.binary t "/" l r)) m (.error .divisionByZero) m₂ := by
  have hvalue : Value.arith "/" a 0 = .error .divisionByZero := by simp [Value.arith]
  rw [← hvalue]
  exact yields_binary_int hl hr

end

/-- **Whole expressions are exact modulo 2 ^ 64.** An arithmetic expression yields the one word that is congruent to the
number it stands for. A quotient of two words is the one that is congruent to the quotient of these as signed numbers, cut
off toward zero; to divide by zero is an error. -/
theorem expr_wraps (limits : Limits) (scope : ScopeId) (m : Machine) :
    (∀ (e : Expr) (z : Int), e.Denotes (m.store.get? scope) z →
      ∃ n : Int64, (∀ k : Int64, k.toInt ≡ z [ZMOD 2 ^ 64] ↔ k = n) ∧ Yields limits (.expr scope e) m (.int n) m) ∧
    ∀ (t : Token) (l r : Expr) (a b : Int64) (m₁ m₂ : Machine), Yields limits (.expr scope l) m (.int a) m₁ →
      Yields limits (.expr scope r) m₁ (.int b) m₂ →
      (b ≠ 0 → ∃ q : Int64, (∀ k : Int64, k.toInt ≡ a.toInt.tdiv b.toInt [ZMOD 2 ^ 64] ↔ k = q) ∧
        Yields limits (.expr scope (.binary t "/" l r)) m (.int q) m₂) ∧
      (b = 0 → Yields limits (.expr scope (.binary t "/" l r)) m (.error .divisionByZero) m₂ ∧
        Fault.divisionByZero.message = "division by zero") := by
  constructor
  · intro e z h
    exact ⟨Int64.ofInt z, fun k => toInt_modEq_iff, yields_of_denotes h⟩
  · intro t l r a b m₁ m₂ hl hr
    constructor
    · intro hb
      refine ⟨a / b, ?_, yields_quotient hb hl hr⟩
      intro k
      rw [toInt_modEq_iff, ofInt_tdiv_toInt]
    · rintro rfl
      exact ⟨yields_division_by_zero hl hr, rfl⟩

/-- A machine on which `x` is the largest integer. -/
def largest : Machine := ({} : Machine).newScope.2.bind 0 "x" (.int Int64.maxValue)

def nameX : Expr := .ident ⟨⟨.ident, "x"⟩, "x"⟩

/-- `x * x + -x` -/
def squareLess : Expr :=
  .binary ⟨.plus, "+"⟩ "+" (.binary ⟨.asterisk, "*"⟩ "*" nameX nameX) (.unary ⟨.minus, "-"⟩ "-" nameX)

/-- The largest integer squared less itself, and the quotient that does not fit. -/
theorem expr_wraps_largest :
    squareLess.Denotes (largest.store.get? 0) (9223372036854775807 * 9223372036854775807 + -9223372036854775807) ∧
      Yields {} (.expr 0 squareLess) largest (.int (-9223372036854775806)) largest ∧
      Yields {} (.expr 0 (.binary ⟨.slash, "/"⟩ "/" (.int ⟨.int, ""⟩ Int64.minValue) (.int ⟨.int, ""⟩ (-1)))) largest
        (.int Int64.minValue) largest := by
  obtain ⟨hexact, hquotient⟩ := expr_wraps {} 0 largest
  have hx : largest.store.get? 0 "x" = some (.int Int64.maxValue) := by
    rw [Store.get?]
    rfl
  have hname : nameX.Denotes (largest.store.get? 0) Int64.maxValue.toInt := .name (x := ⟨_, "x"⟩) hx
  have hsquare : squareLess.Denotes (largest.store.get? 0)
      (9223372036854775807 * 9223372036854775807 + -9223372036854775807) :=
    .sum _ (.product _ hname hname) (.negation _ hname)
  refine ⟨hsquare, ?_, ?_⟩
  · obtain ⟨n, hn, hy⟩ := hexact _ _ hsquare
    have hword : (-9223372036854775806 : Int64) = n := (hn _).mp (by decide)
    rw [hword]
    exact hy
  · obtain ⟨q, hq, hy⟩ := (hquotient ⟨.slash, "/"⟩ (.int ⟨.int, ""⟩ Int64.minValue) (.int ⟨.int, ""⟩ (-1)) _ _
      largest largest (yields_iff.mpr .done) (yields_iff.mpr .done)).1 (by decide)
    have hword : Int64.minValue = q := (hq _).mp (by decide)
    rw [← hword] at hy
    exact hy

end Eval

end LetLang
