import Mathlib.Data.Nat.Cast.Order.Field
import Mathlib.Tactic.GCongr
import TimingDiagram.Number.Basic
import TimingDiagram.Proofs.Number.Nearest

/-! How far doubles reach. A sum, a difference, a product and a quotient of numbers within some
bounds are numbers within a bound, since rounding at most doubles a number and what is far below the
largest double does not overflow. -/
namespace TimingDiagram

open Float.Model Float.Model.UnpackedFloat

namespace Binary

/-- Parts of a finite double whose size is at most a given one. -/
def Reaches (r : ℚ) : UnpackedFloat → Prop
  | .zero _ => True
  | .finite _ m e _ => m * (2 : ℚ) ^ e ≤ r
  | _ => False

section Rounding

variable {r : ℚ} {s : Sign} {m : ℕ} {e : ℤ}

theorem mantissa_shift (em : ExtendedMantissa) (n : ℕ) :
    (em >>> n).mantissa = em.mantissa / 2 ^ n := by
  change (n.repeat ExtendedMantissa.shiftRightOne em).mantissa = _
  induction n with
  | zero => simp [Nat.repeat]
  | succ n ih =>
      change (n.repeat ExtendedMantissa.shiftRightOne em).mantissa / 2 = _
      rw [ih, Nat.div_div_eq_div_mul, pow_succ]

theorem mantissa_ofMantissaAndAccuracy (m : ℕ) (accuracy : Accuracy) :
    (ExtendedMantissa.ofMantissaAndAccuracy m accuracy).mantissa = m := by
  rcases accuracy with _ | (_ | _ | _) <;> rfl

theorem roundedMantissa_le (em : ExtendedMantissa) : em.roundedMantissa ≤ em.mantissa + 1 := by
  rcases em with ⟨m, _ | _, _ | _⟩
  · exact Nat.le_succ m
  · exact Nat.le_succ m
  · change m + m % 2 ≤ m + 1
    omega
  · exact le_rfl

/-- Dropping digits makes a number no larger. -/
theorem shift_le (m n : ℕ) (e : ℤ) :
    ((m / 2 ^ n : ℕ) : ℚ) * 2 ^ (e + n) ≤ m * 2 ^ e := by
  have hDigits : ((m / 2 ^ n : ℕ) : ℚ) * 2 ^ n ≤ m := by
    exact_mod_cast Nat.div_mul_le_self m (2 ^ n)
  rw [zpow_add₀ two_ne_zero, zpow_natCast, mul_left_comm, mul_comm]
  gcongr

theorem lead_le (e : ℤ) (hPos : 0 < m) : (2 : ℚ) ^ (m.log2 + e : ℤ) ≤ m * 2 ^ e := by
  rw [zpow_add₀ two_ne_zero, zpow_natCast]
  gcongr
  exact_mod_cast Nat.log2_self_le hPos.ne'

theorem le_pow_totalExponent (m : ℕ) (e : ℤ) : (m : ℚ) * 2 ^ e ≤ 2 ^ totalExponent m e := by
  change (m : ℚ) * 2 ^ e ≤ 2 ^ ((m.log2 : ℤ) + 1 + e)
  rw [zpow_add₀ two_ne_zero]
  gcongr
  exact_mod_cast Nat.lt_log2_self.le

/-- The place that a number is rounded at is no larger than the number, but for the least one. -/
theorem targetExponent_le (hValue : m * (2 : ℚ) ^ e ≤ r) (hUnit : (2 : ℚ) ^ e ≤ r) (hOne : 1 ≤ r) :
    (2 : ℚ) ^ Format.binary64.targetExponent (totalExponent m e) ≤ r := by
  change (2 : ℚ) ^ max ((m.log2 + 1 + e : ℤ) - 53) (-1074) ≤ r
  have hLead : (2 : ℚ) ^ (m.log2 + e : ℤ) ≤ r := by
    rcases Nat.eq_zero_or_pos m with rfl | hPos
    · simpa using hUnit
    · exact (lead_le e hPos).trans hValue
  rcases max_choice ((m.log2 + 1 + e : ℤ) - 53) (-1074) with h | h <;> rw [h]
  · exact (zpow_le_zpow_right₀ one_le_two (by omega)).trans hLead
  · exact (zpow_le_one_of_nonpos₀ one_le_two (by omega)).trans hOne

theorem reaches_ofMantissa (h : m * (2 : ℚ) ^ e ≤ r) :
    Reaches r (if hZero : m = 0 then .zero s else .finite s m e (Nat.pos_of_ne_zero hZero)) := by
  by_cases hZero : m = 0
  · rw [dif_pos hZero]
    trivial
  · rw [dif_neg hZero]
    exact h

/-- Rounding at most doubles a number. -/
theorem reaches_roundWithAccuracy (hValue : m * (2 : ℚ) ^ e ≤ r) (hUnit : (2 : ℚ) ^ e ≤ r)
    (hOne : 1 ≤ r) (accuracy : Accuracy) :
    Reaches (2 * r) (roundWithAccuracy .binary64 s m e accuracy) := by
  obtain ⟨t, ht⟩ : ∃ t, t = Format.binary64.targetExponent (totalExponent m e) := ⟨_, rfl⟩
  have hTarget : (2 : ℚ) ^ t ≤ r := ht ▸ targetExponent_le hValue hUnit hOne
  obtain ⟨em, hem⟩ : ∃ em, em = ExtendedMantissa.ofMantissaAndAccuracy m accuracy >>> (t - e).toNat :=
    ⟨_, rfl⟩
  obtain ⟨e₁, he₁⟩ : ∃ e₁, e₁ = e + (t - e).toNat := ⟨_, rfl⟩
  obtain ⟨n, hn⟩ : ∃ n, n = (Format.binary64.targetExponent
    (totalExponent em.roundedMantissa e₁) - e₁).toNat := ⟨_, rfl⟩
  have hFirst : (em.roundedMantissa : ℚ) * 2 ^ e₁ ≤ 2 * r := by
    have hPlace : (2 : ℚ) ^ e₁ ≤ r := by
      rcases le_total t e with h | h
      · rwa [he₁, Int.toNat_eq_zero.mpr (by omega), Nat.cast_zero, add_zero]
      · rwa [he₁, Int.toNat_of_nonneg (by omega), add_sub_cancel]
    have hDigits : em.roundedMantissa ≤ m / 2 ^ (t - e).toNat + 1 := by
      have h := roundedMantissa_le em
      rwa [hem, mantissa_shift, mantissa_ofMantissaAndAccuracy, ← hem] at h
    calc (em.roundedMantissa : ℚ) * 2 ^ e₁
      _ ≤ ((m / 2 ^ (t - e).toNat : ℕ) + 1) * 2 ^ e₁ := by
          gcongr
          exact_mod_cast hDigits
      _ = (m / 2 ^ (t - e).toNat : ℕ) * 2 ^ e₁ + 2 ^ e₁ := by ring
      _ ≤ r + r := add_le_add (he₁ ▸ (shift_le m _ e).trans hValue) hPlace
      _ = 2 * r := by ring
  have hSecond : ((em.roundedMantissa / 2 ^ n : ℕ) : ℚ) * 2 ^ (e₁ + n) ≤ 2 * r :=
    (shift_le _ _ _).trans hFirst
  have hMantissa : (ExtendedMantissa.ofMantissaAndAccuracy em.roundedMantissa .exact >>> n).mantissa =
      em.roundedMantissa / 2 ^ n := by
    rw [mantissa_shift, mantissa_ofMantissaAndAccuracy]
  rw [← hMantissa] at hSecond
  rw [hn, he₁, hem, ht] at hSecond
  exact reaches_ofMantissa hSecond

theorem reaches_round (hPos : 0 < m) (hValue : m * (2 : ℚ) ^ e ≤ r) (hOne : 1 ≤ r) :
    Reaches (2 * r) (UnpackedFloat.round .binary64 s m e) := by
  obtain ⟨n, hn⟩ : ∃ n, n = (e - Format.binary64.targetExponent (totalExponent m e)).toNat := ⟨_, rfl⟩
  have hSame : ((m <<< n : ℕ) : ℚ) * 2 ^ (e - n : ℤ) = m * 2 ^ e := by
    rw [Nat.shiftLeft_eq, Nat.cast_mul, Nat.cast_pow, Nat.cast_ofNat, mul_assoc, ← zpow_natCast,
      ← zpow_add₀ two_ne_zero, add_sub_cancel]
  have hUnit : (2 : ℚ) ^ (e - n : ℤ) ≤ r := by
    have hPower : (2 : ℚ) ^ (e - n : ℤ) ≤ 2 ^ e := zpow_le_zpow_right₀ one_le_two (by omega)
    have hOnce : (1 : ℚ) ≤ m := by exact_mod_cast hPos
    refine hPower.trans (le_trans ?_ hValue)
    exact le_mul_of_one_le_left (by positivity) hOnce
  have hRounded := reaches_roundWithAccuracy (s := s) (hSame.trans_le hValue) hUnit hOne .exact
  rw [hn] at hRounded
  exact hRounded

theorem reaches_normalize {m : ℤ} (hValue : |(m : ℚ)| * 2 ^ e ≤ r) (hOne : 1 ≤ r) :
    Reaches (2 * r) (UnpackedFloat.normalize .binary64 m e s) := by
  rcases lt_trichotomy m 0 with h | rfl | h
  · have hSize : (((-m).toNat : ℕ) : ℚ) * 2 ^ e ≤ r := by
      have hNat : (((-m).toNat : ℕ) : ℚ) = |(m : ℚ)| := by
        rw [abs_of_neg (by exact_mod_cast h)]
        exact_mod_cast congrArg (Int.cast (R := ℚ)) (Int.toNat_of_nonneg (by omega : 0 ≤ -m))
      rwa [hNat]
    rw [UnpackedFloat.normalize, Int.compare_eq_lt.mpr h]
    exact reaches_round (by omega) hSize hOne
  · trivial
  · have hSize : ((m.toNat : ℕ) : ℚ) * 2 ^ e ≤ r := by
      have hNat : ((m.toNat : ℕ) : ℚ) = |(m : ℚ)| := by
        rw [abs_of_pos (by exact_mod_cast h)]
        exact_mod_cast congrArg (Int.cast (R := ℚ)) (Int.toNat_of_nonneg h.le)
      rwa [hNat]
    rw [UnpackedFloat.normalize, Int.compare_eq_gt.mpr h]
    exact reaches_round (by omega) hSize hOne

end Rounding

section Operations

variable {a b : ℚ} {u v : UnpackedFloat}

theorem Reaches.mono (h : Reaches a u) (hLe : a ≤ b) : Reaches b u := by
  rcases u with _ | _ | _ | _
  · exact h
  · exact h
  · trivial
  · exact le_trans h hLe

/-- Parts that stand for a number are those of a zero or of another finite number. -/
theorem Reaches.cases (h : Reaches a u) : (∃ s, u = .zero s) ∨ ∃ s m e hPos, u = .finite s m e hPos ∧
    m * (2 : ℚ) ^ e ≤ a := by
  rcases u with _ | _ | s | ⟨s, m, e, hPos⟩
  · exact h.elim
  · exact h.elim
  · exact .inl ⟨s, rfl⟩
  · exact .inr ⟨s, m, e, hPos, rfl, h⟩

/-- A mantissa moved to a smaller exponent stands for the same number. -/
theorem aligned_eq (s : Sign) (m : ℕ) {e t : ℤ} (h : t ≤ e) :
    |((s.apply ((decreaseExponent m e t).1 : ℤ) : ℤ) : ℚ)| * 2 ^ t = m * 2 ^ e := by
  have hAbs (n : ℕ) : |((s.apply (n : ℤ) : ℤ) : ℚ)| = n := by
    cases s <;> simp [Sign.apply]
  rw [hAbs]
  change ((m <<< (e - t).toNat : ℕ) : ℚ) * 2 ^ t = _
  rw [Nat.shiftLeft_eq, Nat.cast_mul, Nat.cast_pow, Nat.cast_ofNat, mul_assoc, ← zpow_natCast,
    ← zpow_add₀ two_ne_zero, Int.toNat_of_nonneg (by omega), sub_add_cancel]

theorem scaled_le {x y z p : ℚ} (hp : 0 ≤ p) (hz : |z| ≤ |x| + |y|) (hx : |x| * p ≤ a)
    (hy : |y| * p ≤ b) : |z| * p ≤ a + b :=
  calc |z| * p
    _ ≤ (|x| + |y|) * p := mul_le_mul_of_nonneg_right hz hp
    _ = |x| * p + |y| * p := add_mul _ _ _
    _ ≤ a + b := add_le_add hx hy

theorem reaches_add (hu : Reaches a u) (hv : Reaches b v) (ha : 0 ≤ a) (hb : 0 ≤ b) (hOne : 1 ≤ a + b) :
    Reaches (2 * (a + b)) (UnpackedFloat.add .binary64 u v) := by
  rcases hu.cases with ⟨s, rfl⟩ | ⟨s, m, e, hm, rfl, hu⟩ <;>
    rcases hv.cases with ⟨t, rfl⟩ | ⟨t, n, f, hn, rfl, hv⟩
  · cases s <;> cases t <;> trivial
  · exact le_trans hv (by linarith)
  · exact le_trans hu (by linarith)
  · refine reaches_normalize ?_ hOne
    rw [Int.cast_add]
    exact scaled_le (by positivity) (abs_add_le _ _) ((aligned_eq s m (min_le_left e f)).trans_le hu)
      ((aligned_eq t n (min_le_right e f)).trans_le hv)

theorem reaches_sub (hu : Reaches a u) (hv : Reaches b v) (ha : 0 ≤ a) (hb : 0 ≤ b) (hOne : 1 ≤ a + b) :
    Reaches (2 * (a + b)) (UnpackedFloat.sub .binary64 u v) := by
  rcases hu.cases with ⟨s, rfl⟩ | ⟨s, m, e, hm, rfl, hu⟩ <;>
    rcases hv.cases with ⟨t, rfl⟩ | ⟨t, n, f, hn, rfl, hv⟩
  · cases s <;> cases t <;> trivial
  · exact le_trans hv (by linarith)
  · exact le_trans hu (by linarith)
  · refine reaches_normalize ?_ hOne
    rw [Int.cast_sub]
    exact scaled_le (by positivity) (abs_sub _ _) ((aligned_eq s m (min_le_left e f)).trans_le hu)
      ((aligned_eq t n (min_le_right e f)).trans_le hv)

theorem reaches_mul (hu : Reaches a u) (hv : Reaches b v) (ha : 0 ≤ a) (hOne : 1 ≤ a * b) :
    Reaches (2 * (a * b)) (UnpackedFloat.mul .binary64 u v) := by
  rcases hu.cases with ⟨s, rfl⟩ | ⟨s, m, e, hm, rfl, hu⟩ <;>
    rcases hv.cases with ⟨t, rfl⟩ | ⟨t, n, f, hn, rfl, hv⟩
  · trivial
  · trivial
  · trivial
  · have hValue : ((m * n : ℕ) : ℚ) * 2 ^ (e + f) ≤ a * b := by
      rw [Nat.cast_mul, zpow_add₀ two_ne_zero, mul_mul_mul_comm]
      exact mul_le_mul hu hv (by positivity) ha
    refine reaches_roundWithAccuracy hValue (le_trans ?_ hValue) hOne .exact
    have hOnce : (1 : ℚ) ≤ (m * n : ℕ) := by exact_mod_cast Nat.mul_pos hm hn
    exact le_mul_of_one_le_left (by positivity) hOnce

section Quotient

variable {m n : ℕ} {e f p : ℤ}

/-- A quotient of mantissas, of which the first has more digits, is no larger than the quotient. -/
theorem shifted_div_le (hp : p ≤ e - f) :
    (((m <<< (e - f - p).toNat) / n : ℕ) : ℚ) * 2 ^ p ≤ m * 2 ^ e / (n * 2 ^ f) := by
  have hShift : (m : ℚ) * 2 ^ (e - f - p).toNat * 2 ^ p = m * 2 ^ e / 2 ^ f := by
    rw [mul_assoc, ← zpow_natCast, ← zpow_add₀ two_ne_zero, Int.toNat_of_nonneg (by omega),
      sub_add_cancel, zpow_sub₀ two_ne_zero, mul_div_assoc]
  calc (((m <<< (e - f - p).toNat) / n : ℕ) : ℚ) * 2 ^ p
    _ ≤ (m <<< (e - f - p).toNat : ℕ) / n * 2 ^ p := by
        gcongr
        exact Nat.cast_div_le
    _ = m * 2 ^ e / (n * 2 ^ f) := by
        rw [Nat.shiftLeft_eq, Nat.cast_mul, Nat.cast_pow, Nat.cast_ofNat, div_mul_eq_mul_div,
          hShift, div_div, mul_comm (2 ^ f : ℚ)]

/-- The last of 53 places of a quotient is no larger than the quotient. -/
theorem place_le_div (hm : 0 < m) (hn : 0 < n) :
    (2 : ℚ) ^ (totalExponent m e - totalExponent n f - 53) ≤ m * 2 ^ e / (n * 2 ^ f) :=
  calc (2 : ℚ) ^ (totalExponent m e - totalExponent n f - 53)
    _ ≤ 2 ^ ((m.log2 + e : ℤ) - totalExponent n f) := by
        refine zpow_le_zpow_right₀ one_le_two ?_
        change ((m.log2 : ℤ) + 1 + e) - _ - 53 ≤ _
        omega
    _ = 2 ^ (m.log2 + e : ℤ) / 2 ^ totalExponent n f := zpow_sub₀ two_ne_zero _ _
    _ ≤ m * 2 ^ e / (n * 2 ^ f) :=
        div_le_div₀ (by positivity) (lead_le e hm) (by positivity) (le_pow_totalExponent n f)

end Quotient

theorem reaches_div {c : ℚ} (t : Sign) {n : ℕ} {f : ℤ} (hn : 0 < n) (hu : Reaches a u) (hc : 0 < c)
    (hv : c ≤ n * (2 : ℚ) ^ f) (hOne : 1 ≤ a / c) :
    Reaches (2 * (a / c)) (UnpackedFloat.div .binary64 u (.finite t n f hn)) := by
  rcases hu.cases with ⟨s, rfl⟩ | ⟨s, m, e, hm, rfl, hu⟩
  · trivial
  · obtain ⟨p, hp⟩ : ∃ p, p = min (e - f)
        (Format.binary64.targetExponent (totalExponent m e - totalExponent n f)) := ⟨_, rfl⟩
    have hQuotient : m * (2 : ℚ) ^ e / (n * 2 ^ f) ≤ a / c :=
      div_le_div₀ (le_trans (by positivity) hu) hu hc hv
    have hValue : (((m <<< (e - f - p).toNat) / n : ℕ) : ℚ) * 2 ^ p ≤ a / c :=
      (shifted_div_le (hp ▸ min_le_left _ _)).trans hQuotient
    have hUnit : (2 : ℚ) ^ p ≤ a / c := by
      have hPlace : p ≤ max (totalExponent m e - totalExponent n f - 53) (-1074) :=
        hp ▸ min_le_right _ _
      rcases le_max_iff.mp hPlace with h | h
      · exact (zpow_le_zpow_right₀ one_le_two h).trans ((place_le_div hm hn).trans hQuotient)
      · exact (zpow_le_one_of_nonpos₀ one_le_two (by omega)).trans hOne
    have hRounded := reaches_roundWithAccuracy (s := s / t) hValue hUnit hOne
      (accuracyOfFraction ((m <<< (e - f - p).toNat) % n) n)
    rw [hp] at hRounded
    exact hRounded

/-- The bits of a double tell its size. -/
theorem reaches_unpack {b : BitVec 64} (hTop : @unpackExponent .binary64 b ≠ -1#11) (hOne : 1 ≤ a)
    (hValue : @unpackExponent .binary64 b ≠ 0#11 →
      ((2 ^ 52 + (@unpackMantissa .binary64 b).toNat : ℕ) : ℚ) *
        2 ^ ((@unpackExponent .binary64 b).toNat - 1075 : ℤ) ≤ a) :
    Reaches a (UnpackedFloat.unpack .binary64 b) := by
  change Reaches a (if @unpackExponent .binary64 b = -1#_ then _ else _)
  rw [if_neg hTop]
  by_cases hLeast : @unpackExponent .binary64 b = 0#11
  · rw [if_pos hLeast]
    by_cases hNone : @unpackMantissa .binary64 b = 0#52
    · rw [dif_pos hNone]
      trivial
    · rw [dif_neg hNone, hLeast]
      refine le_trans ?_ hOne
      change ((@unpackMantissa .binary64 b).toNat : ℚ) * 2 ^ (-1074 : ℤ) ≤ 1
      have hDigits : ((@unpackMantissa .binary64 b).toNat : ℚ) ≤ 2 ^ (52 : ℤ) := by
        exact_mod_cast (@unpackMantissa .binary64 b).isLt.le
      calc ((@unpackMantissa .binary64 b).toNat : ℚ) * 2 ^ (-1074 : ℤ)
        _ ≤ 2 ^ (52 : ℤ) * 2 ^ (-1074 : ℤ) := by gcongr
        _ = 2 ^ (-1022 : ℤ) := by rw [← zpow_add₀ two_ne_zero]; rfl
        _ ≤ 1 := zpow_le_one_of_nonpos₀ one_le_two (by omega)
  · rw [if_neg hLeast]
    have h := hValue hLeast
    rw [← toNat_one_append] at h
    exact h

theorem reaches_pack (hu : Reaches a u) (hOne : 1 ≤ a) (hCap : a < 2 ^ (972 : ℤ)) :
    Reaches a (UnpackedFloat.unpack .binary64 (UnpackedFloat.pack .binary64 u)) := by
  rcases hu.cases with ⟨s, rfl⟩ | ⟨s, m, e, hm, rfl, hu⟩
  · cases s <;> trivial
  · have hSmall : e < 972 := by
      have hOnce : (1 : ℚ) ≤ m := by exact_mod_cast hm
      have hPower : (2 : ℚ) ^ e < 2 ^ (972 : ℤ) :=
        ((le_mul_of_one_le_left (by positivity) hOnce).trans hu).trans_lt hCap
      exact (zpow_lt_zpow_iff_right₀ one_lt_two).mp hPower
    rw [pack_finite, if_neg (by omega)]
    split_ifs with hFull
    · have hBits : 2 ^ 52 ≤ m ∧ m < 2 ^ 53 := (Nat.log2_eq_iff hm.ne').mp (by omega)
      have hField : (BitVec.ofNat 11 (e + 1023 + 52).toNat).toNat = (e + 1023 + 52).toNat := by
        rw [BitVec.toNat_ofNat]
        exact Nat.mod_eq_of_lt (by omega)
      apply reaches_unpack
      · rw [unpackExponent_packComponents]
        intro hTop
        have hSame : (BitVec.ofNat 11 (e + 1023 + 52).toNat).toNat = 2047 := congrArg BitVec.toNat hTop
        omega
      · exact hOne
      · rw [unpackExponent_packComponents, unpackMantissa_packComponents]
        intro hSome
        have hLeast : (BitVec.ofNat 11 (e + 1023 + 52).toNat).toNat ≠ 0 :=
          fun h => hSome (BitVec.eq_of_toNat_eq h)
        change ((2 ^ 52 + m % 2 ^ 52 : ℕ) : ℚ) *
          2 ^ (((BitVec.ofNat 11 (e + 1023 + 52).toNat).toNat : ℤ) - 1075) ≤ a
        rw [hField] at hLeast ⊢
        rw [show 2 ^ 52 + m % 2 ^ 52 = m by omega,
          show (((e + 1023 + 52).toNat : ℤ) - 1075) = e by omega]
        exact hu
    · apply reaches_unpack
      · rw [unpackExponent_packComponents]
        decide
      · exact hOne
      · rw [unpackExponent_packComponents]
        exact fun h => absurd rfl h

end Operations

/-- A double that is a number of at most a given power of two. -/
def Within (k : ℕ) (x : Float) : Prop := Reaches (2 ^ k) x.toModel.unpack

section Doubles

variable {j k : ℕ} {x y : Float} {d : Dyadic}

theorem Within.mono (h : Within j x) (hLe : j ≤ k) : Within k x :=
  Reaches.mono h (pow_le_pow_right₀ one_le_two hLe)

theorem within_iff : Within k x ↔ ∃ d, read x = .finite d ∧ d.magnitude ≤ 2 ^ k := by
  rw [read_eq_ofParts, Within]
  have hNone {u : UnpackedFloat} (hu : ∀ d, ofParts u ≠ .finite d) :
      ¬ ∃ d, ofParts u = .finite d ∧ d.magnitude ≤ 2 ^ k :=
    fun ⟨d, hd, _⟩ => hu d hd
  rcases x.toModel.unpack with _ | _ | s | ⟨s, m, e, hPos⟩
  · exact iff_of_false id (hNone fun _ => Reading.noConfusion)
  · exact iff_of_false id (hNone fun _ => Reading.noConfusion)
  · refine iff_of_true trivial ⟨_, rfl, ?_⟩
    change ((0 : ℕ) : ℚ) * 2 ^ (-1074 : ℤ) ≤ 2 ^ k
    rw [Nat.cast_zero, zero_mul]
    positivity
  · constructor
    · exact fun h => ⟨_, rfl, h⟩
    · rintro ⟨d, hd, h⟩
      obtain rfl := Reading.finite.inj hd
      exact h

theorem pow_lt_cap (hk : k ≤ 900) : (2 : ℚ) ^ k < 2 ^ (972 : ℤ) := by
  rw [← zpow_natCast]
  exact zpow_lt_zpow_right₀ one_lt_two (by omega)

theorem within_pack {r : ℚ} {u : UnpackedFloat} (h : Reaches r u) (hSize : r = 2 ^ k) (hk : k ≤ 900) :
    Within k (.ofModel (Float.Model.pack u)) := by
  subst hSize
  exact reaches_pack h (one_le_pow₀ one_le_two) (pow_lt_cap hk)

theorem within_add (hx : Within k x) (hy : Within k y) (hk : k + 2 ≤ 900) : Within (k + 2) (x + y) := by
  have hOne : (1 : ℚ) ≤ 2 ^ k := one_le_pow₀ one_le_two
  exact within_pack (reaches_add hx hy (by positivity) (by positivity) (by linarith)) (by ring) hk

theorem within_sub (hx : Within k x) (hy : Within k y) (hk : k + 2 ≤ 900) : Within (k + 2) (x - y) := by
  have hOne : (1 : ℚ) ≤ 2 ^ k := one_le_pow₀ one_le_two
  exact within_pack (reaches_sub hx hy (by positivity) (by positivity) (by linarith)) (by ring) hk

theorem within_mul (hx : Within j x) (hy : Within k y) (hk : j + k + 1 ≤ 900) :
    Within (j + k + 1) (x * y) := by
  have hOne : (1 : ℚ) ≤ 2 ^ j * 2 ^ k := by
    rw [← pow_add]
    exact one_le_pow₀ one_le_two
  exact within_pack (reaches_mul hx hy (by positivity) hOne) (by ring) hk

theorem within_div (hx : Within k x) {s : Sign} {m : ℕ} {e : ℤ} {hm : 0 < m}
    (hy : y.toModel.unpack = .finite s m e hm) (hLeast : 1 ≤ m * (2 : ℚ) ^ e * 2 ^ j)
    (hk : k + j + 1 ≤ 900) : Within (k + j + 1) (x / y) := by
  have hOne : (1 : ℚ) ≤ 2 ^ k / (1 / 2 ^ j) := by
    rw [div_div_eq_mul_div, div_one, ← pow_add]
    exact one_le_pow₀ one_le_two
  have hParts := reaches_div s hm hx (by positivity) (by rwa [div_le_iff₀ (by positivity)])
    hOne
  rw [← hy] at hParts
  exact within_pack hParts (by rw [div_div_eq_mul_div, div_one]; ring) hk

/-- A number within a bound has a whole part within it. -/
theorem num_le (h : d.magnitude ≤ 2 ^ k) : d.num ≤ 2 ^ k * d.den := by
  have hDen : (0 : ℚ) < d.den := by exact_mod_cast d.den_pos
  rw [← d.num_div_den, div_le_iff₀ hDen] at h
  exact_mod_cast h

theorem natAbs_signedNum (d : Dyadic) : d.signedNum.natAbs = d.num := by
  rw [Dyadic.signedNum]
  split_ifs <;> simp

theorem Within.floor (h : Within k x) : ∃ i : ℤ, Number.floor (.real x) = .ok i ∧ i.natAbs ≤ 2 ^ k := by
  obtain ⟨d, hd, hSize⟩ := within_iff.mp h
  refine ⟨d.floor, by simp [Number.floor, Number.toWhole, hd], ?_⟩
  have hNum := num_le hSize
  rw [← natAbs_signedNum] at hNum
  have hDen : (0 : ℤ) < d.den := by exact_mod_cast d.den_pos
  have hLow : -(2 ^ k : ℤ) * d.den ≤ d.signedNum := by
    zify at hNum
    linarith [neg_abs_le d.signedNum]
  have hHigh : d.signedNum ≤ 2 ^ k * d.den := by
    zify at hNum
    exact (le_abs_self _).trans hNum
  have hFloor : -(2 ^ k : ℤ) ≤ d.floor ∧ d.floor ≤ 2 ^ k := by
    rw [Dyadic.floor, Int.fdiv_eq_ediv_of_nonneg _ hDen.le]
    exact ⟨(Int.le_ediv_iff_mul_le hDen).mpr hLow, Int.ediv_le_of_le_mul hDen hHigh⟩
  zify
  exact abs_le.mpr hFloor

theorem Within.truncate (h : Within k x) :
    ∃ i : ℤ, Number.truncate (.real x) = .ok i ∧ i.natAbs ≤ 2 ^ k := by
  obtain ⟨d, hd, hSize⟩ := within_iff.mp h
  refine ⟨d.truncate, by simp [Number.truncate, Number.toWhole, hd], ?_⟩
  rw [Dyadic.truncate, Int.natAbs_tdiv, natAbs_signedNum]
  exact Nat.div_le_of_le_mul ((num_le hSize).trans_eq (mul_comm _ _))

theorem Within.isInf_eq_false (h : Within k x) : x.isInf = false := by
  change x.toModel.unpack.isInf = false
  rcases Reaches.cases h with ⟨s, hs⟩ | ⟨s, m, e, hPos, hs, _⟩ <;> rw [hs] <;> rfl

theorem unpack_nearest_two : (Number.nearest 2).toModel.unpack =
    .finite .positive (2 ^ 52) (-51) (by decide) := rfl

/-- The double nearest to a whole number is at most twice its size. -/
theorem within_nearest {n : ℤ} (h : n.natAbs ≤ 2 ^ k) (hk : k ≤ 900) :
    Within (k + 1) (Number.nearest n) := by
  rw [within_iff]
  rcases Nat.eq_zero_or_pos n.natAbs with hZero | hPos
  · obtain rfl := Int.natAbs_eq_zero.mp hZero
    exact ⟨⟨false, 0, -1074⟩, rfl, by simp [Dyadic.magnitude]⟩
  · have hSize : (n.natAbs : ℚ) ≤ 2 ^ k := by exact_mod_cast h
    -- Zero is a double as well, and the nearest one is no further away.
    have hZero : |Dyadic.magnitude ⟨false, 0, -1074⟩ - n.natAbs / (1 : ℕ)| = n.natAbs := by
      simp [Dyadic.magnitude]
    have hRoom : (n.natAbs : ℚ) / (1 : ℕ) +
        |Dyadic.magnitude ⟨false, 0, -1074⟩ - n.natAbs / (1 : ℕ)| < 2 ^ 1024 := by
      have hTwice : (n.natAbs : ℚ) + n.natAbs ≤ 2 ^ (k + 1) := by
        rw [pow_succ]
        linarith
      rw [hZero, Nat.cast_one, div_one]
      exact hTwice.trans_lt (pow_lt_pow_right₀ one_lt_two (by omega))
    obtain ⟨d, hRead, _, hClose⟩ := read_ofRatio (decide (n < 0)) hPos one_pos
      (v := ⟨false, 0, -1074⟩) (by norm_num) (by norm_num) hRoom
    refine ⟨d, hRead, ?_⟩
    rw [hZero, Nat.cast_one, div_one] at hClose
    rw [pow_succ]
    linarith [(abs_le.mp hClose).2]

theorem toFloat_whole {n : ℤ} (h : n.natAbs ≤ 2 ^ k) (hk : k ≤ 900) :
    (Number.whole n).toFloat = .ok (Number.nearest n) := by
  rw [Number.toFloat, (within_nearest h hk).isInf_eq_false]
  rfl

end Doubles

end Binary
end TimingDiagram
