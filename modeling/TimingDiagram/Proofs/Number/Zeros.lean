import TimingDiagram.Proofs.Number.Bounds
import TimingDiagram.Proofs.Number.Order
import TimingDiagram.Proofs.Outcome

/-! Zeros among doubles, and where an operation has no result. A zero is added without a change to
anything but the negative zero, which is a sum only of negative zeros, and a product has no result only
if a factor has none or a zero meets an infinity. -/
namespace TimingDiagram

open Float.Model Float.Model.UnpackedFloat

namespace Binary

section Packing

/-- What the parts of a double are packed into is the double. -/
theorem ofModel_pack_unpack (x : Float) : Float.ofModel (Float.Model.pack x.toModel.unpack) = x := by
  obtain ⟨⟨bits, hValid⟩⟩ := x
  have hKept : UnpackedFloat.pack .binary64 (UnpackedFloat.unpack .binary64 bits.toBitVec) =
      bits.toBitVec := by
    by_cases hTop : @unpackExponent .binary64 bits.toBitVec = -1#11
    · have hParts := packComponents_unpack bits.toBitVec
      change UnpackedFloat.pack .binary64
        (if @unpackExponent .binary64 bits.toBitVec = -1#_ then _ else _) = _
      rw [if_pos hTop]
      by_cases hNone : @unpackMantissa .binary64 bits.toBitVec = 0#52
      · rw [if_pos hNone]
        rw [hTop, hNone] at hParts
        exact hParts
      · rw [if_neg hNone]
        exact (hValid.eq_packedNaN hTop hNone).symm
    · exact pack_unpack _ hTop
  exact congrArg Float.ofModel (Float.Model.mk.injEq _ _ _ _ ▸ congrArg UInt64.ofBitVec hKept)

variable {b : BitVec 64} {s t : Sign} {m : ℕ} {e : ℤ}

/-- What bits stand for below the highest exponent: zero where they hold no digits, and otherwise a
number of whole least places. -/
theorem unpack_cases (h : @unpackExponent .binary64 b ≠ -1#11) :
    (@unpackExponent .binary64 b = 0#11 ∧ @unpackMantissa .binary64 b = 0#52 ∧
      ∃ s, UnpackedFloat.unpack .binary64 b = .zero s) ∨
    ∃ s m e hm, UnpackedFloat.unpack .binary64 b = .finite s m e hm ∧ -1074 ≤ e := by
  have hOpen : UnpackedFloat.unpack .binary64 b =
      if @unpackExponent .binary64 b = -1#_ then _ else _ := rfl
  rw [if_neg h] at hOpen
  by_cases hLow : @unpackExponent .binary64 b = 0#11
  · rw [if_pos hLow] at hOpen
    by_cases hNone : @unpackMantissa .binary64 b = 0#52
    · rw [dif_pos hNone] at hOpen
      exact .inl ⟨hLow, hNone, _, hOpen⟩
    · rw [dif_neg hNone] at hOpen
      refine .inr ⟨_, _, _, _, hOpen, ?_⟩
      change -1074 ≤ ((@unpackExponent .binary64 b).toNat : ℤ) - 1075 + 1
      omega
  · rw [if_neg hLow] at hOpen
    refine .inr ⟨_, _, _, _, hOpen, ?_⟩
    change -1074 ≤ ((@unpackExponent .binary64 b).toNat : ℤ) - 1075
    have hLeast : (@unpackExponent .binary64 b).toNat ≠ 0 :=
      fun hNone => hLow (BitVec.eq_of_toNat_eq hNone)
    omega

/-- Bits of the highest exponent stand for no number. -/
theorem unpack_of_top (h : @unpackExponent .binary64 b = -1#11) :
    (∃ s, UnpackedFloat.unpack .binary64 b = .infinity s) ∨
      UnpackedFloat.unpack .binary64 b = .notANumber := by
  have hOpen : UnpackedFloat.unpack .binary64 b =
      if @unpackExponent .binary64 b = -1#_ then _ else _ := rfl
  rw [if_pos h] at hOpen
  by_cases hNone : @unpackMantissa .binary64 b = 0#52
  · exact .inl ⟨_, hOpen.trans (if_pos hNone)⟩
  · exact .inr (hOpen.trans (if_neg hNone))

theorem isNaN_unpack (h : @unpackExponent .binary64 b ≠ -1#11) :
    (UnpackedFloat.unpack .binary64 b).isNaN = false := by
  rcases unpack_cases h with ⟨_, _, s, hOpen⟩ | ⟨s, m, e, hm, hOpen, _⟩ <;> rw [hOpen] <;> rfl

theorem of_unpack_eq_zero (h : UnpackedFloat.unpack .binary64 b = .zero s) :
    @unpackExponent .binary64 b = 0#11 ∧ @unpackMantissa .binary64 b = 0#52 := by
  by_cases hTop : @unpackExponent .binary64 b = -1#11
  · rcases unpack_of_top hTop with ⟨t, hOpen⟩ | hOpen <;> cases hOpen.symm.trans h
  · rcases unpack_cases hTop with ⟨hLow, hNone, _⟩ | ⟨t, m, e, hm, hOpen, _⟩
    · exact ⟨hLow, hNone⟩
    · cases hOpen.symm.trans h

/-- An exponent that does not overflow is below the highest one. -/
theorem field_ne_top (h : ¬ 2 ^ 11 ≤ (e + 1023 + 52).toNat + 1) :
    BitVec.ofNat 11 (e + 1023 + 52).toNat ≠ -1#11 := by
  intro hTop
  have hSame : (BitVec.ofNat 11 (e + 1023 + 52).toNat).toNat = 2047 := congrArg BitVec.toNat hTop
  rw [BitVec.toNat_ofNat] at hSame
  omega

/-- Packing makes no number of what is none, and the other way round. -/
theorem isNaN_unpack_pack (u : UnpackedFloat) :
    (UnpackedFloat.unpack .binary64 (UnpackedFloat.pack .binary64 u)).isNaN = u.isNaN := by
  rcases u with s | _ | s | ⟨s, m, e, hPos⟩
  · cases s <;> rfl
  · rfl
  · cases s <;> rfl
  · change _ = false
    rw [pack_finite]
    split_ifs with hOver
    · cases s <;> rfl
    · exact isNaN_unpack (unpackExponent_packComponents.trans_ne (field_ne_top hOver))
    · exact isNaN_unpack (unpackExponent_packComponents.trans_ne (by decide))

theorem unpack_pack_zero (s : Sign) :
    UnpackedFloat.unpack .binary64 (UnpackedFloat.pack .binary64 (.zero s)) = .zero s := by
  cases s <;> rfl

theorem unpack_pack_infinity (s : Sign) :
    UnpackedFloat.unpack .binary64 (UnpackedFloat.pack .binary64 (.infinity s)) = .infinity s := by
  cases s <;> rfl

theorem unpack_pack_notANumber : UnpackedFloat.unpack .binary64
    (UnpackedFloat.pack .binary64 .notANumber) = .notANumber := rfl

/-- A number that has been rounded is not packed into a zero. -/
theorem unpack_pack_ne_zero (hPos : 0 < m) (hDigits : m < 2 ^ 53) (hLeast : -1074 ≤ e) :
    UnpackedFloat.unpack .binary64 (UnpackedFloat.pack .binary64 (.finite s m e hPos)) ≠ .zero t := by
  rw [pack_finite]
  split_ifs with hOver hFull
  · cases s <;> exact nofun
  · intro hZero
    obtain ⟨hNone, _⟩ := of_unpack_eq_zero hZero
    rw [unpackExponent_packComponents] at hNone
    have hField := congrArg BitVec.toNat hNone
    rw [BitVec.toNat_ofNat, BitVec.toNat_ofNat] at hField
    omega
  · intro hZero
    obtain ⟨_, hNone⟩ := of_unpack_eq_zero hZero
    rw [unpackMantissa_packComponents] at hNone
    have hField := congrArg BitVec.toNat hNone
    rw [BitVec.toNat_ofNat, BitVec.toNat_ofNat] at hField
    have hBits : m.log2 < 53 := (Nat.log2_lt hPos.ne').mpr hDigits
    have hShort : m < 2 ^ 52 := (Nat.log2_lt hPos.ne').mp (by omega)
    omega

end Packing

section Rounding

variable {s t : Sign} {m : ℕ} {e : ℤ}

/-- The digits that are kept of a number, up to the place it is rounded at: some, and not too many. -/
theorem kept_digits (hPos : 0 < m) (hLeast : -1074 ≤ e) :
    0 < m / 2 ^ (Format.binary64.targetExponent (totalExponent m e) - e).toNat ∧
      m / 2 ^ (Format.binary64.targetExponent (totalExponent m e) - e).toNat < 2 ^ 53 := by
  have hPlace : Format.binary64.targetExponent (totalExponent m e) =
      max ((m.log2 : ℤ) + 1 + e - 53) (-1074) := rfl
  have hLow := Nat.log2_self_le hPos.ne'
  have hHigh := @Nat.lt_log2_self m
  rw [hPlace]
  by_cases hMany : 52 ≤ m.log2
  · obtain ⟨k, hk⟩ : ∃ k, m.log2 = 52 + k := ⟨m.log2 - 52, by omega⟩
    rw [hk, pow_add] at hLow
    rw [hk, show 52 + k + 1 = 53 + k by omega, pow_add] at hHigh
    rw [show (max ((m.log2 : ℤ) + 1 + e - 53) (-1074) - e).toNat = k by omega]
    have hUnit : 0 < 2 ^ k := Nat.two_pow_pos k
    exact ⟨Nat.div_pos ((Nat.le_mul_of_pos_left _ (by decide)).trans hLow) hUnit,
      (Nat.div_lt_iff_lt_mul hUnit).mpr hHigh⟩
  · rw [show (max ((m.log2 : ℤ) + 1 + e - 53) (-1074) - e).toNat = 0 by omega, pow_zero, Nat.div_one]
    exact ⟨hPos, hHigh.trans_le (Nat.pow_le_pow_right two_pos (by omega))⟩

theorem le_roundedMantissa (em : ExtendedMantissa) : em.mantissa ≤ em.roundedMantissa := by
  rcases em with ⟨m, _ | _, _ | _⟩
  · exact le_rfl
  · exact le_rfl
  · exact Nat.le_add_right m (m % 2)
  · exact Nat.le_succ m

/-- A number of whole least places keeps some of its digits when it is rounded. -/
theorem roundWithAccuracy_eq (hPos : 0 < m) (hLeast : -1074 ≤ e) :
    ∃ n f hn, roundWithAccuracy .binary64 s m e .exact = .finite s n f hn ∧ n < 2 ^ 53 ∧
      -1074 ≤ f := by
  obtain ⟨em, hem⟩ : ∃ em, em = ExtendedMantissa.ofMantissaAndAccuracy m .exact >>>
    (Format.binary64.targetExponent (totalExponent m e) - e).toNat := ⟨_, rfl⟩
  obtain ⟨g, hg⟩ : ∃ g, g = e + (Format.binary64.targetExponent (totalExponent m e) - e).toNat :=
    ⟨_, rfl⟩
  have hFirst : 0 < em.roundedMantissa := by
    have hKept := (kept_digits hPos hLeast).1
    have hLe := le_roundedMantissa em
    rw [hem, mantissa_shift, mantissa_ofMantissaAndAccuracy, ← hem] at hLe
    omega
  -- Rounding up may have made one more digit, and so the last one is dropped a second time.
  obtain ⟨hSome, hFew⟩ := kept_digits hFirst (show -1074 ≤ g by omega)
  have hLast : (ExtendedMantissa.ofMantissaAndAccuracy em.roundedMantissa .exact >>>
      (Format.binary64.targetExponent (totalExponent em.roundedMantissa g) - g).toNat).mantissa =
      em.roundedMantissa /
        2 ^ (Format.binary64.targetExponent (totalExponent em.roundedMantissa g) - g).toNat := by
    rw [mantissa_shift, mantissa_ofMantissaAndAccuracy]
  rw [← hLast] at hSome hFew
  refine ⟨_, g + (Format.binary64.targetExponent (totalExponent em.roundedMantissa g) - g).toNat,
    hSome, ?_, hFew, by omega⟩
  subst hem hg
  exact dif_neg hSome.ne'

/-- A number of whole least places is not rounded to zero. -/
theorem unpack_pack_round_ne_zero (hPos : 0 < m) (hLeast : -1074 ≤ e) :
    UnpackedFloat.unpack .binary64 (UnpackedFloat.pack .binary64
      (UnpackedFloat.round .binary64 s m e)) ≠ .zero t := by
  have hPlace : Format.binary64.targetExponent (totalExponent m e) =
      max ((m.log2 : ℤ) + 1 + e - 53) (-1074) := rfl
  obtain ⟨n, f, hn, hRounded, hDigits, hRange⟩ := roundWithAccuracy_eq (s := s)
    (m := m <<< (e - Format.binary64.targetExponent (totalExponent m e)).toNat)
    (e := e - (e - Format.binary64.targetExponent (totalExponent m e)).toNat)
    (Nat.shiftLeft_eq m _ ▸ Nat.mul_pos hPos (Nat.two_pow_pos _)) (by omega)
  have hRound : UnpackedFloat.round .binary64 s m e = .finite s n f hn := hRounded
  rw [hRound]
  exact unpack_pack_ne_zero hn hDigits hRange

theorem unpack_pack_normalize_ne {m : ℤ} (hLeast : -1074 ≤ e) :
    UnpackedFloat.unpack .binary64 (UnpackedFloat.pack .binary64
      (UnpackedFloat.normalize .binary64 m e .positive)) ≠ .zero .negative := by
  rcases lt_trichotomy m 0 with h | rfl | h
  · rw [UnpackedFloat.normalize, Int.compare_eq_lt.mpr h]
    exact unpack_pack_round_ne_zero (by omega) hLeast
  · rw [UnpackedFloat.normalize, Int.compare_eq_eq.mpr rfl]
    exact (unpack_pack_zero .positive).trans_ne (by simp)
  · rw [UnpackedFloat.normalize, Int.compare_eq_gt.mpr h]
    exact unpack_pack_round_ne_zero (by omega) hLeast

end Rounding

section Operations

variable {x y : Float} {s : Sign}

theorem isNaN_dite {c : Prop} [Decidable c] {u : c → UnpackedFloat} {v : ¬ c → UnpackedFloat}
    (hu : ∀ h, (u h).isNaN = false) (hv : ∀ h, (v h).isNaN = false) :
    (dite c u v).isNaN = false := by
  by_cases h : c
  · rw [dif_pos h, hu]
  · rw [dif_neg h, hv]

theorem isNaN_roundWithAccuracy {m : ℕ} {e : ℤ} {a : Accuracy} :
    (roundWithAccuracy .binary64 s m e a).isNaN = false := by
  rw [roundWithAccuracy]
  exact isNaN_dite (fun _ => rfl) (fun _ => rfl)

/-- A product has a result where both factors have one and no zero meets an infinity. -/
theorem not_isNaN_mul (hx : ¬ x.isNaN) (hy : ¬ y.isNaN)
    (hLeft : ∀ s t, x.toModel.unpack = .zero s → y.toModel.unpack ≠ .infinity t)
    (hRight : ∀ s t, x.toModel.unpack = .infinity s → y.toModel.unpack ≠ .zero t) :
    ¬ (x * y).isNaN := by
  change ¬ x.toModel.unpack.isNaN = true at hx
  change ¬ y.toModel.unpack.isNaN = true at hy
  change ¬ (UnpackedFloat.unpack .binary64 (UnpackedFloat.pack .binary64
    (UnpackedFloat.mul .binary64 x.toModel.unpack y.toModel.unpack))).isNaN = true
  rw [isNaN_unpack_pack]
  generalize x.toModel.unpack = u at *
  generalize y.toModel.unpack = v at *
  cases u with
  | notANumber => exact absurd rfl hx
  | infinity s =>
      cases v with
      | notANumber => exact absurd rfl hy
      | zero t => exact absurd rfl (hRight s t rfl)
      | infinity | finite => exact Bool.false_ne_true
  | zero s =>
      cases v with
      | notANumber => exact absurd rfl hy
      | infinity t => exact absurd rfl (hLeft s t rfl)
      | zero | finite => exact Bool.false_ne_true
  | finite s m e hm =>
      cases v with
      | notANumber => exact absurd rfl hy
      | infinity | zero => exact Bool.false_ne_true
      | finite t n f hn =>
          exact Bool.eq_false_iff.mp isNaN_roundWithAccuracy

/-- A product has no result where a factor has none. -/
theorem isNaN_mul (h : x.isNaN ∨ y.isNaN) : (x * y).isNaN := by
  change x.toModel.unpack.isNaN = true ∨ y.toModel.unpack.isNaN = true at h
  change (UnpackedFloat.unpack .binary64 (UnpackedFloat.pack .binary64
    (UnpackedFloat.mul .binary64 x.toModel.unpack y.toModel.unpack))).isNaN = true
  rw [isNaN_unpack_pack]
  generalize x.toModel.unpack = u at *
  generalize y.toModel.unpack = v at *
  rcases h with h | h
  · cases u with
    | notANumber => rfl
    | infinity | zero | finite => cases h
  · cases v with
    | notANumber => cases u <;> rfl
    | infinity | zero | finite => cases h

/-- Zero times a finite double is zero. -/
theorem unpack_zero_mul (hx : x.toModel.unpack = .zero s) {d : Dyadic} (hy : read y = .finite d) :
    ∃ t, (x * y).toModel.unpack = .zero t := by
  change ∃ t, UnpackedFloat.unpack .binary64 (UnpackedFloat.pack .binary64
    (UnpackedFloat.mul .binary64 x.toModel.unpack y.toModel.unpack)) = .zero t
  rw [read_eq_ofParts] at hy
  rw [hx]
  generalize y.toModel.unpack = v at *
  cases v with
  | notANumber | infinity => cases hy
  | zero t => exact ⟨_, unpack_pack_zero (s * t)⟩
  | finite t m e hm => exact ⟨_, unpack_pack_zero (s * t)⟩

/-- A zero is added to anything but the negative zero without a change. -/
theorem add_zero_eq (hx : x.toModel.unpack ≠ .zero .negative) (hy : y.toModel.unpack = .zero s) :
    x + y = x := by
  have hParts : UnpackedFloat.add .binary64 x.toModel.unpack y.toModel.unpack = x.toModel.unpack := by
    rw [hy]
    generalize x.toModel.unpack = u at *
    cases u with
    | notANumber | infinity | finite => rfl
    | zero t =>
        cases t with
        | negative => exact absurd rfl hx
        | positive => cases s <;> rfl
  change Float.ofModel (Float.Model.pack
    (UnpackedFloat.add .binary64 x.toModel.unpack y.toModel.unpack)) = x
  rw [hParts, ofModel_pack_unpack]

theorem exponent_ge {m : ℕ} {e : ℤ} {hm : 0 < m} (h : x.toModel.unpack = .finite s m e hm) :
    -1074 ≤ e := by
  have hBits : UnpackedFloat.unpack .binary64 x.toModel.toBits.toBitVec = .finite s m e hm := h
  by_cases hTop : @unpackExponent .binary64 x.toModel.toBits.toBitVec = -1#11
  · rcases unpack_of_top hTop with ⟨t, hOpen⟩ | hOpen <;> cases hOpen.symm.trans hBits
  · rcases unpack_cases hTop with ⟨_, _, t, hOpen⟩ | ⟨t, n, f, hn, hOpen, hLeast⟩
    · cases hOpen.symm.trans hBits
    · cases hOpen.symm.trans hBits
      exact hLeast

theorem unpack_pack_unpack (x : Float) : UnpackedFloat.unpack .binary64
    (UnpackedFloat.pack .binary64 x.toModel.unpack) = x.toModel.unpack :=
  congrArg (fun x => x.toModel.unpack) (ofModel_pack_unpack x)

/-- A sum is the negative zero only if its first operand is. -/
theorem unpack_add_ne (hx : x.toModel.unpack ≠ .zero .negative) (y : Float) :
    (x + y).toModel.unpack ≠ .zero .negative := by
  change UnpackedFloat.unpack .binary64 (UnpackedFloat.pack .binary64
    (UnpackedFloat.add .binary64 x.toModel.unpack y.toModel.unpack)) ≠ _
  have hLeft := unpack_pack_unpack x
  have hRight := unpack_pack_unpack y
  have hFirst {s m e hm} (h : x.toModel.unpack = .finite s m e hm) := exponent_ge h
  have hSecond {s m e hm} (h : y.toModel.unpack = .finite s m e hm) := exponent_ge h
  generalize x.toModel.unpack = u at *
  generalize y.toModel.unpack = v at *
  cases u with
  | notANumber => exact unpack_pack_notANumber.trans_ne (by simp)
  | infinity s =>
      cases v with
      | notANumber => exact unpack_pack_notANumber.trans_ne (by simp)
      | infinity t =>
          change UnpackedFloat.unpack .binary64 (UnpackedFloat.pack .binary64
            (if s == t then .infinity s else .notANumber)) ≠ _
          split_ifs
          · exact (unpack_pack_infinity s).trans_ne (by simp)
          · exact unpack_pack_notANumber.trans_ne (by simp)
      | zero | finite => exact (unpack_pack_infinity s).trans_ne (by simp)
  | zero s =>
      cases s with
      | negative => exact absurd rfl hx
      | positive =>
          cases v with
          | notANumber => exact unpack_pack_notANumber.trans_ne (by simp)
          | infinity t => exact (unpack_pack_infinity t).trans_ne (by simp)
          | zero t => cases t <;> exact (unpack_pack_zero .positive).trans_ne (by simp)
          | finite t n f hn => exact hRight.trans_ne (by rintro ⟨⟩)
  | finite s m e hm =>
      cases v with
      | notANumber => exact unpack_pack_notANumber.trans_ne (by simp)
      | infinity t => exact (unpack_pack_infinity t).trans_ne (by simp)
      | zero t => exact hLeft.trans_ne (by rintro ⟨⟩)
      | finite t n f hn => exact unpack_pack_normalize_ne (le_min (hFirst rfl) (hSecond rfl))

end Operations

section Wholes

variable {n : ℤ}

/-- A whole number is far from the least place of a double. -/
theorem fractionSize_le_magnitudeBits {num : ℕ} (h : 0 < num) :
    fractionSize ≤ magnitudeBits num 1 := by
  have hPlace : -53 ≤ lastPlace num 1 := by
    rw [lastPlace, show Nat.log2 1 = 0 by decide]
    split_ifs <;> omega
  have hSize : fractionSize = 2 ^ 52 := rfl
  rw [magnitudeBits, if_neg h.ne']
  refine le_min ?_ (Nat.le_mul_of_pos_left _ (by decide))
  refine le_trans ?_ (Nat.le_add_right _ _)
  exact Nat.le_mul_of_pos_left _ (by omega)

/-- The double nearest to a whole number is a number, and only that nearest to zero is zero. -/
theorem read_nearest (n : ℤ) : (∃ negative, read (Number.nearest n) = .infinite negative) ∨
    ∃ d, read (Number.nearest n) = .finite d ∧ (n ≠ 0 → d.mantissa ≠ 0) := by
  rcases eq_or_ne n 0 with rfl | h
  · exact .inr ⟨⟨false, 0, -1074⟩, rfl, absurd rfl⟩
  have hPos := Int.natAbs_pos.mpr h
  have hSome := fractionSize_le_magnitudeBits hPos
  rw [Number.nearest, ofRatio]
  rcases lt_or_ge (magnitudeBits n.natAbs 1) (2047 * fractionSize) with hFinite | hTop
  · rw [read_ofMagnitude _ hFinite, if_neg (not_lt.mpr hSome)]
    exact .inr ⟨_, rfl, fun _ => (Nat.add_pos_left (by decide) _).ne'⟩
  · have hMost : magnitudeBits n.natAbs 1 = 2047 * fractionSize := by
      refine le_antisymm ?_ hTop
      rw [magnitudeBits, if_neg hPos.ne']
      exact min_le_right _ _
    rw [hMost]
    exact .inl ⟨decide (n < 0), by cases decide (n < 0) <;> rfl⟩

theorem mantissa_of_unpack_eq_zero {x : Float} {s : Sign} {d : Dyadic}
    (h : x.toModel.unpack = .zero s) (hRead : read x = .finite d) : d.mantissa = 0 := by
  rw [read_eq_ofParts, h] at hRead
  cases hRead
  rfl

theorem unpack_ne_zero_of_infinite {x : Float} {negative : Bool} (h : read x = .infinite negative)
    (s : Sign) : x.toModel.unpack ≠ .zero s := by
  intro hZero
  rw [read_eq_ofParts, hZero] at h
  cases h

end Wholes

end Binary

namespace Number

open Binary

variable {m n r : Number} {x : Float}

theorem not_isNaN_of_toFloat (hm : ¬ m.IsNaN) (h : m.toFloat = .ok x) : ¬ x.isNaN := by
  cases m with
  | real y =>
      cases h
      exact hm
  | whole k =>
      rw [toFloat] at h
      split_ifs at h
      cases h
      rw [isNaN_iff_read]
      rcases read_nearest k with ⟨_, hk⟩ | ⟨_, hk, _⟩ <;> rw [hk] <;> exact Reading.noConfusion

/-- A positive number is no zero as a double. -/
theorem unpack_ne_zero_of_pos (hm : (whole 0).order m = some .lt) (h : m.toFloat = .ok x) (s : Sign) :
    x.toModel.unpack ≠ .zero s := by
  intro hZero
  cases m with
  | real y =>
      obtain rfl : y = x := Except.ok.inj h
      change compareWhole 0 y = some .lt at hm
      rw [compareWhole] at hm
      cases hRead : read y with
      | notANumber => simp [hRead] at hm
      | infinite negative => exact unpack_ne_zero_of_infinite hRead s hZero
      | finite d =>
          have hNone := mantissa_of_unpack_eq_zero hZero hRead
          simp [hRead, Dyadic.signedNum, Dyadic.num, hNone] at hm
  | whole k =>
      have hSome : k ≠ 0 := by
        rintro rfl
        cases hm
      rw [toFloat] at h
      split_ifs at h
      cases h
      rcases read_nearest k with ⟨_, hk⟩ | ⟨d, hk, hMantissa⟩
      · exact unpack_ne_zero_of_infinite hk s hZero
      · exact hMantissa hSome (mantissa_of_unpack_eq_zero hZero hk)

/-- A product of numbers is whole, or that of the doubles that they are. -/
theorem of_mul (h : m.mul n = .ok r) : (∃ k, r = .whole k) ∨
    ∃ x y, m.toFloat = .ok x ∧ n.toFloat = .ok y ∧ r = .real (x * y) := by
  have hBoth (h : (do return .real ((← m.toFloat) * (← n.toFloat))) = (.ok r : Except Fault Number)) :
      ∃ x y, m.toFloat = .ok x ∧ n.toFloat = .ok y ∧ r = .real (x * y) := by
    obtain ⟨x, hx, h⟩ := bind_eq_ok_iff.mp h
    obtain ⟨y, hy, h⟩ := bind_eq_ok_iff.mp h
    exact ⟨x, y, hx, hy, (Except.ok.inj h).symm⟩
  cases m with
  | real x => exact .inr (hBoth h)
  | whole j =>
      cases n with
      | real y => exact .inr (hBoth h)
      | whole k => exact .inl ⟨_, (Except.ok.inj h).symm⟩

/-- A product has no result where a factor has none. -/
theorem isNaN_mul (hNaN : m.IsNaN ∨ n.IsNaN) (h : m.mul n = .ok r) : r.IsNaN := by
  have hBoth {x y : Float} (hx : m.toFloat = .ok x) (hy : n.toFloat = .ok y) : (x * y).isNaN := by
    apply Binary.isNaN_mul
    rcases hNaN with hNaN | hNaN
    · cases m with
      | whole => exact hNaN.elim
      | real => cases hx; exact .inl hNaN
    · cases n with
      | whole => exact hNaN.elim
      | real => cases hy; exact .inr hNaN
  rcases of_mul h with ⟨k, rfl⟩ | ⟨x, y, hx, hy, rfl⟩
  · cases m with
    | real x =>
        obtain ⟨_, _, h⟩ := bind_eq_ok_iff.mp h
        obtain ⟨_, _, ⟨⟩⟩ := bind_eq_ok_iff.mp h
    | whole i =>
        cases n with
        | real y =>
            obtain ⟨_, _, h⟩ := bind_eq_ok_iff.mp h
            obtain ⟨_, _, ⟨⟩⟩ := bind_eq_ok_iff.mp h
        | whole j => exact hNaN.elim id id
  · exact hBoth hx hy

/-- Positive numbers have a product. -/
theorem not_isNaN_mul_of_pos (hm : (whole 0).order m = some .lt) (hn : (whole 0).order n = some .lt)
    (h : m.mul n = .ok r) : ¬ r.IsNaN := by
  have hNumber {k : Number} (hk : (whole 0).order k = some .lt) : ¬ k.IsNaN := fun hNaN => by
    rw [(order_eq_none_iff _ _).mpr (.inr hNaN)] at hk
    cases hk
  rcases of_mul h with ⟨k, rfl⟩ | ⟨x, y, hx, hy, rfl⟩
  · exact id
  · exact not_isNaN_mul (not_isNaN_of_toFloat (hNumber hm) hx) (not_isNaN_of_toFloat (hNumber hn) hy)
      (fun s _ hZero => absurd hZero (unpack_ne_zero_of_pos hm hx s))
      (fun _ t _ => unpack_ne_zero_of_pos hn hy t)

/-- A number can be doubled. -/
theorem not_isNaN_mul_two (hm : ¬ m.IsNaN) (h : m.mul (.whole 2) = .ok r) : ¬ r.IsNaN := by
  rcases of_mul h with ⟨k, rfl⟩ | ⟨x, y, hx, hy, rfl⟩
  · exact id
  · rw [toFloat_whole (k := 1) (by decide) (by decide)] at hy
    cases hy
    refine not_isNaN_mul (not_isNaN_of_toFloat hm hx) (not_isNaN_of_toFloat id (toFloat_whole (k := 1)
      (by decide) (by decide))) (fun _ _ _ => ?_) (fun _ _ _ => ?_) <;> rw [unpack_nearest_two] <;> rintro ⟨⟩

end Number
end TimingDiagram
