import Mathlib.Algebra.Order.Group.Nat
import Mathlib.Tactic.IntervalCases
import Mathlib.Tactic.Ring
import TimingDiagram.Number.Numeral

/-! Decimal digits. A natural number is the value of its digits, which start with no zero unless
they are the zero alone. -/
namespace TimingDiagram

/-- The digit of a number below ten. -/
def digit (n : ℕ) : Char := Char.ofNat (48 + n)

theorem isDigit_digit {n : ℕ} (h : n < 10) : (digit n).isDigit = true := by
  interval_cases n <;> rfl

theorem toNat_digit {n : ℕ} (h : n < 10) : (digit n).toNat = 48 + n := by
  interval_cases n <;> rfl

theorem digit_eq_zero_iff {n : ℕ} (h : n < 10) : digit n = '0' ↔ n = 0 := by
  interval_cases n <;> decide

theorem digitsOf_of_lt {n : ℕ} (h : n < 10) : digitsOf n = [digit n] := by
  rw [digitsOf, if_pos h]
  rfl

theorem digitsOf_zero : digitsOf 0 = ['0'] :=
  digitsOf_of_lt (by decide)

theorem digitsOf_of_le {n : ℕ} (h : 10 ≤ n) :
    digitsOf n = digitsOf (n / 10) ++ [digit (n % 10)] := by
  rw [digitsOf, if_neg (not_lt.mpr h)]
  rfl

theorem digitsOf_ne_nil (n : ℕ) : digitsOf n ≠ [] := by
  rw [digitsOf]
  split <;> simp

theorem isDigit_of_mem_digitsOf {n : ℕ} : ∀ c ∈ digitsOf n, c.isDigit = true := by
  induction n using digitsOf.induct with
  | case1 n h => simp [digitsOf_of_lt h, isDigit_digit h]
  | case2 n h ih =>
      rw [digitsOf_of_le (not_lt.mp h)]
      intro c hc
      rcases List.mem_append.mp hc with hc | hc
      · exact ih c hc
      · rw [List.mem_singleton.mp hc]
        exact isDigit_digit (Nat.mod_lt _ (by decide))

theorem head?_digitsOf {n : ℕ} (h : (digitsOf n).head? = some '0') : n = 0 := by
  induction n using digitsOf.induct with
  | case1 n hn =>
      rw [digitsOf_of_lt hn, List.head?_cons, Option.some.injEq] at h
      exact (digit_eq_zero_iff hn).mp h
  | case2 n hn ih =>
      rw [digitsOf_of_le (not_lt.mp hn), List.head?_append,
        Option.or_of_isSome (by simp [digitsOf_ne_nil])] at h
      have := ih h
      omega

namespace Numeral

theorem foldl_digits (cs : List Char) (n : ℕ) :
    cs.foldl (fun n c => 10 * n + (c.toNat - 48)) n = n * 10 ^ cs.length + digitsValue cs := by
  induction cs generalizing n with
  | nil => simp [digitsValue]
  | cons c cs ih =>
      rw [digitsValue, List.foldl_cons, List.foldl_cons, ih, ih, List.length_cons, pow_succ]
      ring

theorem digitsValue_append (cs more : List Char) :
    digitsValue (cs ++ more) = digitsValue cs * 10 ^ more.length + digitsValue more := by
  rw [digitsValue, List.foldl_append, foldl_digits more]
  rfl

theorem digitsValue_digit {n : ℕ} (h : n < 10) : digitsValue [digit n] = n := by
  simp [digitsValue, toNat_digit h]

theorem digitsValue_digitsOf (n : ℕ) : digitsValue (digitsOf n) = n := by
  induction n using digitsOf.induct with
  | case1 n h => rw [digitsOf_of_lt h, digitsValue_digit h]
  | case2 n h ih =>
      rw [digitsOf_of_le (not_lt.mp h), digitsValue_append, ih,
        digitsValue_digit (Nat.mod_lt _ (by decide)), List.length_singleton, pow_one]
      exact Nat.div_add_mod' n 10

end Numeral
end TimingDiagram
