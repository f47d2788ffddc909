import Mathlib.Algebra.Order.Field.Power
import Mathlib.Tactic.Positivity
import TimingDiagram.Proofs.Number.Bits
import TimingDiagram.Proofs.Number.Rounding

/-! The double nearest to a quotient. No finite double lies closer to a quotient of natural numbers
than the one that the quotient is rounded to. -/
namespace TimingDiagram

/-- A power of two as the quotient that binary fractions are scaled with. -/
theorem zpow_two_eq (e : ℤ) : (2 : ℚ) ^ e = 2 ^ e.toNat / 2 ^ (-e).toNat := by
  rcases Int.le_total 0 e with h | h
  · rw [Int.toNat_eq_zero.mpr (neg_nonpos.mpr h), pow_zero, div_one, ← zpow_natCast,
      Int.toNat_of_nonneg h]
  · rw [Int.toNat_eq_zero.mpr h, pow_zero, one_div, ← zpow_natCast,
      Int.toNat_of_nonneg (neg_nonneg.mpr h), zpow_neg, inv_inv]

namespace Dyadic

/-- The number without its sign. -/
def magnitude (d : Dyadic) : ℚ := d.mantissa * (2 : ℚ) ^ d.exponent

/-- The number that a binary fraction stands for. -/
def value (d : Dyadic) : ℚ := if d.negative then -d.magnitude else d.magnitude

variable (d : Dyadic)

theorem den_pos : 0 < d.den := Nat.two_pow_pos _

theorem num_div_den : (d.num : ℚ) / d.den = d.magnitude := by
  have hNum : (d.num : ℚ) = d.mantissa * 2 ^ d.exponent.toNat := by
    exact_mod_cast rfl
  have hDen : (d.den : ℚ) = 2 ^ (-d.exponent).toNat := by
    exact_mod_cast rfl
  rw [hNum, hDen, magnitude, zpow_two_eq, mul_div_assoc]

end Dyadic

namespace Binary

/-- What is held in the fields of a finite double. -/
theorem finite_bounds {x : Float} {d : Dyadic} (h : read x = .finite d) :
    d.mantissa < 2 ^ 53 ∧ -1074 ≤ d.exponent ∧ d.exponent ≤ 971 := by
  have hFraction : x.toBits.toNat % fractionSize < fractionSize := Nat.mod_lt _ (by decide)
  have hField : x.toBits.toNat / fractionSize % 2048 < 2048 := Nat.mod_lt _ (by decide)
  have hSize : fractionSize = 2 ^ 52 := rfl
  simp only [read] at h
  split_ifs at h with h₁ h₂ h₃
  · obtain rfl := Reading.finite.inj h
    dsimp only
    omega
  · obtain rfl := Reading.finite.inj h
    simp only [beq_iff_eq] at h₁ h₃
    dsimp only
    omega

/-- The sign and the bits of the magnitude stay apart. -/
theorem read_ofMagnitude (negative : Bool) {bits : ℕ} (h : bits < 2047 * fractionSize) :
    read (ofMagnitude negative bits) = .finite
      (if bits < fractionSize then ⟨negative, bits, -1074⟩
      else ⟨negative, fractionSize + bits % fractionSize, (bits / fractionSize : ℕ) - 1075⟩) := by
  have hSize : fractionSize = 2 ^ 52 := rfl
  rw [hSize] at h ⊢
  obtain ⟨top, hTop, hSign⟩ : ∃ top, (if negative then Nat.pow 2 63 else 0) = top ∧
      (top = 0 ∧ negative = false ∨ top = 2 ^ 63 ∧ negative = true) := by
    cases negative <;> simp
  have hBits : (ofMagnitude negative bits).toBits.toNat = top + bits := by
    rw [ofMagnitude, hTop]
    exact toNat_toBits_ofBits (by omega) (by rw [hSize]; omega)
  have hField : (top + bits) / 2 ^ 52 % 2048 = bits / 2 ^ 52 := by omega
  have hFraction : (top + bits) % 2 ^ 52 = bits % 2 ^ 52 := by omega
  have hNegative : ((top + bits) / Nat.pow 2 63 == 1) = negative := by
    change ((top + bits) / 2 ^ 63 == 1) = negative
    rcases hSign with ⟨rfl, rfl⟩ | ⟨rfl, rfl⟩
    · rw [beq_eq_false_iff_ne]
      omega
    · rw [beq_iff_eq]
      omega
  have hInside : bits / 2 ^ 52 ≠ 2047 := by omega
  have hLeast : bits / 2 ^ 52 = 0 ↔ bits < 2 ^ 52 := by omega
  simp only [read, hBits, hSize, hField, hFraction, hNegative, beq_iff_eq, hInside, hLeast, if_false]
  split_ifs with hSmall
  · rw [Nat.mod_eq_of_lt hSmall]
  · rfl

/-- A double reads as what its bits were put together from, also where the digits have run over into the
next exponent. -/
theorem read_ofMagnitude_add (negative : Bool) {k m : ℕ} (hFull : 0 < k → fractionSize ≤ m)
    (hDigits : m ≤ 2 * fractionSize) (hFinite : k * fractionSize + m < 2047 * fractionSize) :
    ∃ d, read (ofMagnitude negative (k * fractionSize + m)) = .finite d ∧ d.negative = negative ∧
      d.magnitude = m * 2 ^ ((k : ℤ) - 1074) := by
  have hSize : fractionSize = 2 ^ 52 := rfl
  have hRead := read_ofMagnitude negative hFinite
  rw [hSize] at hFull hDigits hFinite hRead
  rw [hSize]
  refine ⟨_, hRead, ?_, ?_⟩
  · split_ifs <;> rfl
  · rcases lt_or_ge m (2 ^ 52) with h₁ | h₁
    · obtain rfl : k = 0 := by omega
      rw [if_pos (by omega), Dyadic.magnitude]
      simp
    · rw [if_neg (by omega), Dyadic.magnitude]
      rcases hDigits.lt_or_eq with h₂ | rfl
      · rw [show (k * 2 ^ 52 + m) % 2 ^ 52 = m - 2 ^ 52 by omega,
          show (k * 2 ^ 52 + m) / 2 ^ 52 = k + 1 by omega, Nat.add_sub_cancel' h₁]
        congr 2
        push_cast
        ring
      · rw [show (k * 2 ^ 52 + 2 * 2 ^ 52) % 2 ^ 52 = 0 by omega,
          show (k * 2 ^ 52 + 2 * 2 ^ 52) / 2 ^ 52 = k + 2 by omega,
          show ((k + 2 : ℕ) : ℤ) - 1075 = (k - 1074) + 1 by push_cast; ring, zpow_add_one₀ two_ne_zero]
        push_cast
        ring

section Quotient

variable {num den : ℕ}

/-- The quotient in units of the last place. -/
theorem scaled_div (num den : ℕ) (e : ℤ) :
    ((num * Nat.pow 2 (-e).toNat : ℕ) : ℚ) / (den * Nat.pow 2 e.toNat : ℕ) = num / den / 2 ^ e := by
  change ((num * 2 ^ (-e).toNat : ℕ) : ℚ) / (den * 2 ^ e.toNat : ℕ) = _
  rw [zpow_two_eq]
  push_cast
  field_simp

/-- Its leading bits give the size of a quotient but for one bit. -/
theorem div_bounds (hNum : 0 < num) (hDen : 0 < den) :
    (2 : ℚ) ^ ((num.log2 : ℤ) - den.log2 - 1) ≤ num / den ∧
      (num : ℚ) / den < 2 ^ ((num.log2 : ℤ) - den.log2 + 1) := by
  have hNumLow : (2 : ℚ) ^ num.log2 ≤ num := by exact_mod_cast Nat.log2_self_le hNum.ne'
  have hNumHigh : (num : ℚ) < 2 ^ (num.log2 + 1) := by exact_mod_cast Nat.lt_log2_self
  have hDenLow : (2 : ℚ) ^ den.log2 ≤ den := by exact_mod_cast Nat.log2_self_le hDen.ne'
  have hDenHigh : (den : ℚ) < 2 ^ (den.log2 + 1) := by exact_mod_cast Nat.lt_log2_self
  have hPos : (0 : ℚ) < den := by exact_mod_cast hDen
  have hPow (a b : ℕ) : (2 : ℚ) ^ a / 2 ^ b = 2 ^ ((a : ℤ) - b) := by
    rw [zpow_sub₀ two_ne_zero, zpow_natCast, zpow_natCast]
  constructor
  · calc (2 : ℚ) ^ ((num.log2 : ℤ) - den.log2 - 1)
      _ = 2 ^ num.log2 / 2 ^ (den.log2 + 1) := by rw [hPow]; congr 1; push_cast; ring
      _ ≤ num / den := div_le_div₀ (by positivity) hNumLow hPos hDenHigh.le
  · calc (num : ℚ) / den
      _ < 2 ^ (num.log2 + 1) / 2 ^ den.log2 := by
          exact div_lt_div₀ hNumHigh hDenLow (by positivity) (by positivity)
      _ = 2 ^ ((num.log2 : ℤ) - den.log2 + 1) := by rw [hPow]; congr 1; push_cast; ring

/-- The digits of a quotient in the last place fill 53 bits, but for the least exponent. -/
theorem lastPlace_spec (hNum : 0 < num) (hDen : 0 < den) :
    -1074 ≤ lastPlace num den ∧ (num : ℚ) / den < 2 ^ 53 * 2 ^ lastPlace num den ∧
      (-1074 < lastPlace num den → (2 : ℚ) ^ 52 * 2 ^ lastPlace num den ≤ num / den) := by
  obtain ⟨g, hg⟩ : ∃ g : ℤ, g = (num.log2 : ℤ) - den.log2 - 52 := ⟨_, rfl⟩
  have hScale (k : ℕ) (e : ℤ) : (2 : ℚ) ^ k * 2 ^ e = 2 ^ (k + e) := by
    rw [zpow_add₀ two_ne_zero, zpow_natCast]
  obtain ⟨hLow, hHigh⟩ := div_bounds hNum hDen
  have hFull : den * Nat.pow 2 g.toNat * fractionSize ≤ num * Nat.pow 2 (-g).toNat ↔
      (2 : ℚ) ^ 52 * 2 ^ g ≤ num / den := by
    have hUnit : (0 : ℚ) < (den * Nat.pow 2 g.toNat : ℕ) := by
      exact_mod_cast Nat.mul_pos hDen (Nat.two_pow_pos _)
    rw [← le_div_iff₀ (by positivity), ← scaled_div, le_div_iff₀ hUnit, mul_comm]
    exact_mod_cast Iff.rfl
  obtain ⟨e, hPlace, hBelow, hAbove⟩ : ∃ e, lastPlace num den = max e (-1074) ∧
      (2 : ℚ) ^ 52 * 2 ^ e ≤ num / den ∧ (num : ℚ) / den < 2 ^ 53 * 2 ^ e := by
    rw [lastPlace, ← hg]
    by_cases h : (2 : ℚ) ^ 52 * 2 ^ g ≤ num / den
    · refine ⟨g, by simp only [hFull, if_pos h], h, ?_⟩
      rw [hScale, hg, show ((53 : ℕ) : ℤ) + (num.log2 - den.log2 - 52) = num.log2 - den.log2 + 1 by
        push_cast; ring]
      exact hHigh
    · refine ⟨g - 1, by simp only [hFull, if_neg h], ?_, ?_⟩
      · rw [hScale, hg, show ((52 : ℕ) : ℤ) + (num.log2 - den.log2 - 52 - 1) =
          num.log2 - den.log2 - 1 by push_cast; ring]
        exact hLow
      · rw [hScale] at h ⊢
        rw [show ((53 : ℕ) : ℤ) + (g - 1) = (52 : ℕ) + g by push_cast; ring]
        exact not_le.mp h
  rw [hPlace]
  refine ⟨le_max_right _ _, hAbove.trans_le ?_, fun h => ?_⟩
  · gcongr
    · norm_num
    · exact le_max_left _ _
  · rwa [max_eq_left (by omega)]

/-- A finite double is a multiple of the last place, or lies below all digits of the quotient. -/
theorem multiple_or_below {v : Dyadic} (hDigits : v.mantissa < 2 ^ 53) (e : ℤ) :
    (∃ k : ℕ, v.magnitude = k * 2 ^ e) ∨ v.exponent < e ∧ v.magnitude ≤ 2 ^ 52 * 2 ^ e := by
  rcases le_or_gt e v.exponent with h | h
  · refine .inl ⟨v.mantissa * 2 ^ (v.exponent - e).toNat, ?_⟩
    rw [Dyadic.magnitude, Nat.cast_mul, Nat.cast_pow, Nat.cast_ofNat, mul_assoc, ← zpow_natCast,
      ← zpow_add₀ two_ne_zero, Int.toNat_of_nonneg (by omega), sub_add_cancel]
  · refine .inr ⟨h, ?_⟩
    have hMantissa : (v.mantissa : ℚ) ≤ 2 ^ 53 := by exact_mod_cast hDigits.le
    calc v.magnitude
      _ ≤ 2 ^ 53 * 2 ^ (e - 1) := by
          rw [Dyadic.magnitude]
          gcongr
          · norm_num
          · omega
      _ = 2 ^ 52 * 2 ^ e := by
          rw [zpow_sub_one₀ two_ne_zero]
          ring

/-- No finite double is closer to a quotient than the rounded one. -/
theorem round_closest {v : Dyadic} (hDigits : v.mantissa < 2 ^ 53) (hLeast : -1074 ≤ v.exponent)
    {x : ℚ} {m e : ℤ} (hRounds : Rounds (x / 2 ^ e) m)
    (hFull : -1074 < e → (2 : ℚ) ^ 52 * 2 ^ e ≤ x) : |m * 2 ^ e - x| ≤ |v.magnitude - x| := by
  have hUnit : (0 : ℚ) < 2 ^ e := by positivity
  have hScale (k : ℚ) : |k * 2 ^ e - x| = |k - x / 2 ^ e| * 2 ^ e := by
    rw [← abs_of_pos hUnit, ← abs_mul, abs_of_pos hUnit, sub_mul, div_mul_cancel₀ _ hUnit.ne']
  have hClosest (k : ℤ) : |m * 2 ^ e - x| ≤ |k * 2 ^ e - x| := by
    rw [hScale, hScale]
    exact mul_le_mul_of_nonneg_right (hRounds.closest k) hUnit.le
  rcases multiple_or_below hDigits e with ⟨k, hk⟩ | ⟨hSmaller, hBelow⟩
  · rw [hk]
    exact_mod_cast hClosest k
  · have hLead := hFull (by omega)
    calc |m * 2 ^ e - x|
      _ ≤ |((2 ^ 52 : ℤ) : ℚ) * 2 ^ e - x| := hClosest _
      _ = x - 2 ^ 52 * 2 ^ e := by
          rw [Int.cast_pow, Int.cast_ofNat, abs_of_nonpos (by linarith), neg_sub]
      _ ≤ x - v.magnitude := by linarith
      _ ≤ |v.magnitude - x| := by
          rw [abs_sub_comm]
          exact le_abs_self _

/-- What is less than the double past the largest one has the bits of a finite double. -/
theorem bits_lt {m : ℕ} {e : ℤ} (hFull : -1074 < e → fractionSize ≤ m) (hDigits : m ≤ 2 * fractionSize)
    (hCap : (m : ℚ) * 2 ^ e < 2 ^ 1024) :
    (e + 1074).toNat * fractionSize + m < 2047 * fractionSize := by
  have hSize : fractionSize = 2 ^ 52 := rfl
  have hBound (j k : ℕ) (hj : (j : ℤ) ≤ e) (hk : 1024 = k + j) : m < 2 ^ k := by
    have hPower : (2 : ℚ) ^ j ≤ 2 ^ e := by
      rw [← zpow_natCast]
      exact zpow_le_zpow_right₀ one_le_two hj
    have hScaled : (m : ℚ) * 2 ^ j < 2 ^ k * 2 ^ j := by
      rw [← pow_add, ← hk]
      exact (mul_le_mul_of_nonneg_left hPower m.cast_nonneg).trans_lt hCap
    exact_mod_cast lt_of_mul_lt_mul_right hScaled (by positivity)
  rw [hSize] at hFull hDigits ⊢
  rcases lt_or_ge e 971 with h | h
  · omega
  · have hLast := hBound 971 53 h rfl
    have hSmall : e < 972 := by
      by_contra hLarge
      have hNone := hBound 972 52 (by omega) rfl
      exact absurd (hFull (by omega)) (not_le.mpr hNone)
    omega

/-- A quotient becomes a finite double with its sign, and no other one is closer. -/
theorem read_ofRatio (negative : Bool) (hNum : 0 < num) (hDen : 0 < den) {v : Dyadic}
    (hDigits : v.mantissa < 2 ^ 53) (hLeast : -1074 ≤ v.exponent)
    (hRoom : (num : ℚ) / den + |v.magnitude - num / den| < 2 ^ 1024) :
    ∃ d, read (ofRatio negative num den) = .finite d ∧ d.negative = negative ∧
      |d.magnitude - num / den| ≤ |v.magnitude - num / den| := by
  obtain ⟨hPlace, hBelow, hAbove⟩ := lastPlace_spec hNum hDen
  obtain ⟨e, he⟩ : ∃ e, lastPlace num den = e := ⟨_, rfl⟩
  obtain ⟨m, hm⟩ : ∃ m, roundDiv (num * Nat.pow 2 (-e).toNat) (den * Nat.pow 2 e.toNat) = m := ⟨_, rfl⟩
  rw [he] at hPlace hBelow hAbove
  have hUnit : (0 : ℚ) < 2 ^ e := by positivity
  have hRounds : Rounds (num / den / 2 ^ e) m := by
    rw [← hm, ← scaled_div]
    exact rounds_roundDiv _ (Nat.mul_pos hDen (Nat.two_pow_pos _))
  have hSize : fractionSize = 2 ^ 52 := rfl
  have hFew : m ≤ 2 * fractionSize := by
    have hBound : (num : ℚ) / den / 2 ^ e ≤ (2 ^ 53 : ℤ) := by
      rw [div_le_iff₀ hUnit, Int.cast_pow, Int.cast_ofNat]
      exact hBelow.le
    have := hRounds.le_of_le hBound
    omega
  have hMany (h : -1074 < e) : fractionSize ≤ m := by
    have hBound : ((2 ^ 52 : ℤ) : ℚ) ≤ num / den / 2 ^ e := by
      rw [le_div_iff₀ hUnit, Int.cast_pow, Int.cast_ofNat]
      exact hAbove h
    have := hRounds.ge_of_ge hBound
    omega
  have hClosest := round_closest hDigits hLeast hRounds hAbove
  have hCap : (m : ℚ) * 2 ^ e < 2 ^ 1024 := by
    refine lt_of_le_of_lt ?_ hRoom
    have := (abs_le.mp hClosest).2
    push_cast at this
    linarith
  have hFinite := bits_lt hMany hFew hCap
  obtain ⟨d, hRead, hSign, hValue⟩ :=
    read_ofMagnitude_add negative (fun h => hMany (by omega)) hFew hFinite
  refine ⟨d, ?_, hSign, ?_⟩
  · rw [ofRatio, magnitudeBits, if_neg hNum.ne']
    simp only [he, hm]
    rw [min_eq_left hFinite.le]
    exact hRead
  · rw [hValue, Int.toNat_of_nonneg (by omega), add_sub_cancel_right]
    exact hClosest

end Quotient

end Binary
end TimingDiagram
