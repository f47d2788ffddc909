import Mathlib.Algebra.Order.Field.Basic
import Mathlib.Algebra.Order.Ring.Rat
import Mathlib.Algebra.Ring.Int.Parity
import Mathlib.Tactic.Linarith
import Mathlib.Tactic.FieldSimp
import Mathlib.Tactic.Ring
import TimingDiagram.Number.Rounding

/-! The nearest whole number to a rational one, a half going to the even neighbour. -/
namespace TimingDiagram

/-- A whole number is the nearest one to a rational number, and the even one of two that are
equally near. -/
structure Rounds (x : ℚ) (n : ℤ) : Prop where
  near : |x - n| ≤ 1 / 2
  even : |x - n| = 1 / 2 → Even n

namespace Rounds

variable {x y : ℚ} {m n : ℤ}

theorem unique (hm : Rounds x m) (hn : Rounds x n) : m = n := by
  wlog h : m ≤ n generalizing m n
  · exact (this hn hm (le_of_not_ge h)).symm
  have hBelow := abs_le.mp hm.near
  have hAbove := abs_le.mp hn.near
  have hGap : (n : ℚ) ≤ m + 1 := by linarith [hBelow.2, hAbove.1]
  have hGap : n ≤ m + 1 := by exact_mod_cast hGap
  rcases h.eq_or_lt with h | h
  · exact h
  -- Both neighbours are half a step away, and one of them is odd.
  have hNext : n = m + 1 := by omega
  subst hNext
  push_cast at hAbove
  have hHalf : x - m = 1 / 2 := by linarith [hBelow.2, hAbove.1]
  have hEven : Even m := hm.even (by rw [hHalf]; norm_num)
  have hOdd : Even (m + 1) := hn.even (by
    push_cast
    rw [show x - (m + 1) = -(1 / 2) by linarith]
    norm_num)
  exact absurd hOdd (Int.not_even_iff_odd.mpr hEven.add_one)

theorem neg (h : Rounds x n) : Rounds (-x) (-n) := by
  have hSame : |-x - ((-n : ℤ) : ℚ)| = |x - n| := by
    rw [← abs_neg]
    congr 1
    push_cast
    ring
  exact ⟨hSame ▸ h.near, fun hHalf => (h.even (hSame ▸ hHalf)).neg⟩

/-- No whole number is nearer. -/
theorem closest (h : Rounds x n) (k : ℤ) : |n - x| ≤ |k - x| := by
  rcases eq_or_ne k n with rfl | hOther
  · exact le_rfl
  · have hApart : (1 : ℚ) ≤ |(k : ℚ) - n| := by
      exact_mod_cast Int.one_le_abs (sub_ne_zero.mpr hOther)
    have hNear := abs_sub_comm x n ▸ h.near
    linarith [abs_sub_le (k : ℚ) x n, abs_sub_comm x (n : ℚ)]

theorem le_of_le {k : ℤ} (h : Rounds x n) (hBound : x ≤ k) : n ≤ k := by
  by_contra hAbove
  have hNext : (k : ℚ) + 1 ≤ n := by exact_mod_cast Int.add_one_le_iff.mpr (not_le.mp hAbove)
  linarith [(abs_le.mp h.near).1]

theorem ge_of_ge {k : ℤ} (h : Rounds x n) (hBound : (k : ℚ) ≤ x) : k ≤ n := by
  by_contra hBelow
  have hNext : (n : ℚ) + 1 ≤ k := by exact_mod_cast Int.add_one_le_iff.mpr (not_le.mp hBelow)
  linarith [(abs_le.mp h.near).2]

/-- What lies no further from the rounded number is rounded to it as well. -/
theorem of_closer (h : Rounds x n) (hCloser : |y - n| ≤ |x - n|) : Rounds y n :=
  ⟨hCloser.trans h.near, fun hHalf => h.even (h.near.antisymm (hHalf ▸ hCloser))⟩

end Rounds

theorem rounds_self (n : ℤ) : Rounds n n := by
  constructor <;> norm_num

/-- A quotient of natural numbers is rounded to the nearest one. -/
theorem rounds_roundDiv (num : ℕ) {den : ℕ} (hDen : 0 < den) :
    Rounds (num / den) (roundDiv num den) := by
  have hPos : (0 : ℚ) < den := by exact_mod_cast hDen
  obtain ⟨r, hr⟩ : ∃ r : ℚ, r = (num % den : ℕ) / den := ⟨_, rfl⟩
  have hSplit : (num : ℚ) / den = (num / den : ℕ) + r := by
    have hNat : (num : ℚ) = den * (num / den : ℕ) + (num % den : ℕ) := by
      exact_mod_cast (Nat.div_add_mod num den).symm
    rw [hr, hNat, add_div, mul_div_cancel_left₀ _ hPos.ne']
  have hLess : 2 * (num % den) < den ↔ r < 1 / 2 := by
    rw [hr, div_lt_div_iff₀ hPos two_pos, one_mul, mul_comm]
    exact_mod_cast Iff.rfl
  have hMore : den < 2 * (num % den) ↔ 1 / 2 < r := by
    rw [hr, div_lt_div_iff₀ two_pos hPos, one_mul, mul_comm]
    exact_mod_cast Iff.rfl
  have hBelow : 0 ≤ r := by rw [hr]; positivity
  have hAbove : r < 1 := by
    rw [hr, div_lt_one hPos]
    exact_mod_cast Nat.mod_lt num hDen
  have hDown : (num : ℚ) / den - ((num / den : ℕ) : ℤ) = r := by
    rw [hSplit, Int.cast_natCast]
    ring
  have hUp : (num : ℚ) / den - ((num / den + 1 : ℕ) : ℤ) = r - 1 := by
    rw [hSplit, Int.cast_natCast, Nat.cast_succ]
    ring
  simp only [roundDiv, hLess, hMore]
  split_ifs with h₁ h₂ h₃
  · refine ⟨?_, fun hHalf => ?_⟩ <;> rw [hDown, abs_of_nonneg hBelow] at *
    · exact h₁.le
    · exact absurd hHalf h₁.ne
  · refine ⟨?_, fun hHalf => ?_⟩ <;> rw [hUp, abs_of_nonpos (by linarith)] at *
    · linarith
    · linarith
  · refine ⟨?_, fun _ => (Int.even_coe_nat _).mpr (Nat.even_iff.mpr h₃)⟩
    rw [hDown, abs_of_nonneg hBelow]
    exact not_lt.mp h₂
  · refine ⟨?_, fun _ => (Int.even_coe_nat _).mpr (Nat.even_add_one.mpr ?_)⟩
    · rw [hUp, abs_of_nonpos (by linarith)]
      linarith
    · rwa [Nat.even_iff]

end TimingDiagram
