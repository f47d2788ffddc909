import Mathlib.Tactic.Linarith
import TimingDiagram.Number.Binary

/-! The bits of doubles. They are read as what the parts of the double stand for, and those of a finite
double are kept by the double that is made of them. -/
namespace TimingDiagram

open Float.Model Float.Model.UnpackedFloat

section Packing

variable (b : BitVec 64)

theorem toBitVec_ofBitVec (s : BitVec 1) : (Sign.ofBitVec s).toBitVec = s := by
  rw [Sign.ofBitVec]
  split
  · exact Eq.symm ‹_›
  · exact ((BitVec.eq_zero_or_eq_one s).resolve_left ‹_›).symm

theorem packComponents_unpack :
    packComponents .binary64 (Sign.ofBitVec (@unpackSign .binary64 b))
      (@unpackExponent .binary64 b) (@unpackMantissa .binary64 b) = b := by
  rw [packComponents, toBitVec_ofBitVec]
  apply BitVec.eq_of_getLsbD_eq
  intro i hi
  delta unpackSign unpackExponent unpackMantissa
  simp only [BitVec.getLsbD_append, BitVec.getLsbD_cast, BitVec.getLsbD_extractLsb]
  change i < 64 at hi
  split_ifs with h₁ h₂
  · rw [decide_eq_true (by omega), Bool.true_and, Nat.zero_add]
  · rw [decide_eq_true (by omega), Bool.true_and, Nat.add_sub_cancel' (not_lt.mp h₁)]
  · rw [decide_eq_true (by omega), Bool.true_and, show 52 + 11 + (i - 52 - 11) = i by omega]

theorem unpackExponent_eq_top_iff :
    @unpackExponent .binary64 b = -1#11 ↔ b.toNat / Binary.fractionSize % 2048 = 2047 := by
  rw [← BitVec.toNat_inj]
  simp [unpackExponent, Nat.shiftRight_eq_div_pow, Binary.fractionSize]

theorem toNat_one_append (m : BitVec 52) : (1#1 ++ m).toNat = 2 ^ 52 + m.toNat := by
  rw [BitVec.toNat_append, BitVec.toNat_ofNat, Nat.shiftLeft_eq, Nat.mul_comm,
    ← Nat.two_pow_add_eq_or_of_lt m.isLt]
  rfl

theorem pack_finite (s : Sign) {m : ℕ} (e : ℤ) (hPos : 0 < m) :
    pack .binary64 (.finite s m e hPos) =
      if 2 ^ 11 ≤ (e + 1023 + 52).toNat + 1 then packedInfinity .binary64 s
      else if m.log2 + 1 = 53 then
        packComponents .binary64 s (BitVec.ofNat 11 (e + 1023 + 52).toNat) (BitVec.ofNat 52 m)
      else packComponents .binary64 s 0#11 (BitVec.ofNat 52 m) :=
  rfl

theorem pack_subnormal (s : Sign) {m : BitVec 52} (hPos : 0 < m.toNat) :
    pack .binary64 (.finite s m.toNat (-1074) hPos) = packComponents .binary64 s 0#11 m := by
  have hBits : m.toNat.log2 < 52 := (Nat.log2_lt hPos.ne').mpr m.isLt
  rw [pack_finite, if_neg (by decide), if_neg (by omega), BitVec.ofNat_toNat, BitVec.setWidth_eq]

theorem pack_normal (s : Sign) {e : BitVec 11} (hTop : e ≠ -1#11) (m : BitVec 52)
    (hPos : 0 < (1#1 ++ m).toNat) :
    pack .binary64 (.finite s (1#1 ++ m).toNat (e.toNat - 1075) hPos) =
      packComponents .binary64 s e m := by
  have hFull := toNat_one_append m
  have hBits : (1#1 ++ m).toNat.log2 = 52 := by
    rw [Nat.log2_eq_iff hPos.ne', hFull]
    have := m.isLt
    omega
  have hField : ((e.toNat : ℤ) - 1075 + 1023 + 52).toNat = e.toNat := by omega
  have hBelow : e.toNat + 1 < 2 ^ 11 := by
    have hOther : e.toNat ≠ 2047 := fun h => hTop (BitVec.eq_of_toNat_eq h)
    have := e.isLt
    omega
  rw [pack_finite, hField, if_neg (not_le.mpr hBelow), if_pos (by rw [hBits]), BitVec.ofNat_toNat,
    BitVec.setWidth_eq]
  congr 1
  apply BitVec.eq_of_toNat_eq
  rw [BitVec.toNat_ofNat, hFull, Nat.add_mod_left, Nat.mod_eq_of_lt m.isLt]

/-- The bits of anything but an infinity and what is no number are kept. -/
theorem pack_unpack (h : @unpackExponent .binary64 b ≠ -1#11) :
    pack .binary64 (unpack .binary64 b) = b := by
  have hParts := packComponents_unpack b
  change pack .binary64 (if @unpackExponent .binary64 b = -1#_ then _ else _) = b
  rw [if_neg h]
  by_cases hZero : @unpackExponent .binary64 b = 0#11
  · rw [if_pos hZero]
    rw [hZero] at hParts ⊢
    by_cases hNone : @unpackMantissa .binary64 b = 0#52
    · rw [dif_pos hNone]
      rw [hNone] at hParts
      exact hParts
    · rw [dif_neg hNone]
      exact (pack_subnormal _ _).trans hParts
  · rw [if_neg hZero]
    exact (pack_normal _ h _ _).trans hParts

theorem sign_eq_negative :
    (Sign.ofBitVec (@unpackSign .binary64 b) == .negative) = (b.toNat / Nat.pow 2 63 == 1) := by
  have hValue : (@unpackSign .binary64 b).toNat = b.toNat / 2 ^ 63 := by
    have := b.isLt
    delta unpackSign
    rw [BitVec.toNat_cast, BitVec.extractLsb_toNat, Nat.shiftRight_eq_div_pow]
    change b.toNat / 2 ^ 63 % 2 ^ 1 = b.toNat / 2 ^ 63
    omega
  change _ = (b.toNat / 2 ^ 63 == 1)
  rw [← hValue]
  rcases BitVec.eq_zero_or_eq_one (@unpackSign .binary64 b) with h | h <;> rw [h] <;> rfl

end Packing

/-- What the parts of a double stand for. -/
def Binary.ofParts : UnpackedFloat → Binary.Reading
  | .notANumber => .notANumber
  | .infinity s => .infinite (s == .negative)
  | .zero s => .finite ⟨s == .negative, 0, -1074⟩
  | .finite s m e _ => .finite ⟨s == .negative, m, e⟩

/-- A double is read as what its parts stand for. -/
theorem Binary.read_eq_ofParts (x : Float) : read x = ofParts x.toModel.unpack := by
  obtain ⟨b, hb⟩ : ∃ b : BitVec 64, b = x.toModel.toBits.toBitVec := ⟨_, rfl⟩
  have hBits : x.toBits.toNat = b.toNat := by
    rw [hb]
    rfl
  have hExponent : (@unpackExponent .binary64 b).toNat = b.toNat / fractionSize % 2048 := by
    simp [unpackExponent, Nat.shiftRight_eq_div_pow, fractionSize]
  have hMantissa : (@unpackMantissa .binary64 b).toNat = b.toNat % fractionSize := by
    simp [unpackMantissa, fractionSize]
  have hTop : @unpackExponent .binary64 b = -1#11 ↔ (@unpackExponent .binary64 b).toNat = 2047 :=
    hExponent ▸ unpackExponent_eq_top_iff b
  have hLeast : @unpackExponent .binary64 b = 0#11 ↔ (@unpackExponent .binary64 b).toNat = 0 := by
    rw [← BitVec.toNat_inj]
    rfl
  have hNone : @unpackMantissa .binary64 b = 0#52 ↔ (@unpackMantissa .binary64 b).toNat = 0 := by
    rw [← BitVec.toNat_inj]
    rfl
  rw [read]
  simp only [hBits, ← sign_eq_negative b, ← hExponent, ← hMantissa]
  change _ = ofParts (UnpackedFloat.unpack .binary64 x.toModel.toBits.toBitVec)
  rw [← hb]
  delta UnpackedFloat.unpack
  by_cases h₁ : @unpackExponent .binary64 b = -1#_
  · rw [if_pos h₁, if_pos (by simpa using hTop.mp h₁)]
    by_cases h₂ : @unpackMantissa .binary64 b = 0#_
    · rw [if_pos h₂, if_pos (by simpa using hNone.mp h₂)]
      rfl
    · rw [if_neg h₂, if_neg (by simpa using mt hNone.mpr h₂)]
      rfl
  · rw [if_neg h₁, if_neg (by simpa using mt hTop.mpr h₁)]
    by_cases h₂ : @unpackExponent .binary64 b = 0#_
    · rw [if_pos h₂, if_pos (by simpa using hLeast.mp h₂)]
      by_cases h₃ : @unpackMantissa .binary64 b = 0#_
      · rw [dif_pos h₃, hNone.mp h₃]
        rfl
      · rw [dif_neg h₃, hLeast.mp h₂]
        rfl
    · rw [if_neg h₂, if_neg (by simpa using mt hLeast.mpr h₂)]
      change _ = Reading.finite ⟨_, (1#1 ++ @unpackMantissa .binary64 b).toNat, _⟩
      rw [toNat_one_append]
      rfl

/-- A double has the bits that it is made of, unless they are those of an infinity or of what is no
number. -/
theorem toNat_toBits_ofBits {bits : ℕ} (hSize : bits < 2 ^ 64)
    (h : bits / Binary.fractionSize % 2048 ≠ 2047) :
    (Float.ofBits (UInt64.ofNat bits)).toBits.toNat = bits := by
  have hBits : (UInt64.ofNat bits).toBitVec.toNat = bits := UInt64.toNat_ofNat_of_lt hSize
  have hTop : @unpackExponent .binary64 (UInt64.ofNat bits).toBitVec ≠ -1#11 := by
    rwa [ne_eq, unpackExponent_eq_top_iff, hBits]
  have hKept : (Float.ofBits (UInt64.ofNat bits)).toBits = UInt64.ofNat bits :=
    congrArg UInt64.ofBitVec (pack_unpack _ hTop)
  rw [hKept]
  exact hBits

end TimingDiagram
