import TimingDiagram.Proofs.Number.Digits
import TimingDiagram.Proofs.Number.Rounding
import TimingDiagram.Proofs.Text.Runs

/-! Numerals of hundredths. Fixed decimals without their superfluous zeros are the canonical numeral
of the whole number of hundredths that they stand for. -/
namespace TimingDiagram

namespace Numeral

/-- The decimals with the point before them, if there are any. -/
def point (decimals : List Char) : List Char := if decimals = [] then [] else '.' :: decimals

/-- A numeral by its parts: a sign, the digits of the whole part, and the decimals. -/
def spell (negative : Bool) (whole decimals : List Char) : List Char :=
  (if negative then ['-'] else []) ++ whole ++ point decimals

/-- The parts of a numeral in which nothing is superfluous: no zero leads the whole part but the zero
alone, no zero ends the decimals, of which there are at most so many, and zero has no sign. -/
structure CanonicalParts (places : ℕ) (negative : Bool) (whole decimals : List Char) : Prop where
  whole_digits : ∀ c ∈ whole, c.isDigit = true
  whole_ne_nil : whole ≠ []
  whole_lead : whole.head? = some '0' → whole = ['0']
  decimals_digits : ∀ c ∈ decimals, c.isDigit = true
  decimals_few : decimals.length ≤ places
  decimals_end : decimals.getLast? ≠ some '0'
  zero_unsigned : whole = ['0'] → decimals = [] → negative = false

/-- A numeral in which nothing is superfluous. -/
def Canonical (places : ℕ) (cs : List Char) : Prop :=
  ∃ negative whole decimals, CanonicalParts places negative whole decimals ∧
    cs = spell negative whole decimals

/-- The number that a numeral without an exponent denotes. -/
def denoted (cs : List Char) : ℚ :=
  let (negative, cs) := sign cs
  let (whole, rest) := digits cs
  let (decimals, _) := fractionDigits rest
  let magnitude : ℚ := digitsValue (whole ++ decimals) / (10 ^ decimals.length : ℕ)
  if negative then -magnitude else magnitude

theorem point_eq_nil_iff {decimals : List Char} : point decimals = [] ↔ decimals = [] := by
  rw [point]
  split_ifs with h <;> simp [h]

theorem digits_append {cs rest : List Char} (h : ∀ c ∈ cs, c.isDigit = true)
    (hRest : Text.opens Char.isDigit rest = false) : digits (cs ++ rest) = (cs, rest) := by
  rw [digits, Text.takeWhile_run h hRest, Text.dropWhile_run h hRest]

theorem fractionDigits_point {decimals : List Char} (h : ∀ c ∈ decimals, c.isDigit = true) :
    fractionDigits (point decimals) = (decimals, []) := by
  rw [point]
  split_ifs with hNone
  · subst hNone
    rfl
  · rw [fractionDigits, ← List.append_nil decimals, digits_append h rfl, List.append_nil]

namespace CanonicalParts

variable {places : ℕ} {negative : Bool} {whole decimals : List Char}

theorem digits_spell (h : CanonicalParts places negative whole decimals) :
    digits (spell false whole decimals) = (whole, point decimals) := by
  refine digits_append h.whole_digits ?_
  rw [point]
  split_ifs <;> rfl

theorem sign_spell (h : CanonicalParts places negative whole decimals) :
    sign (spell negative whole decimals) = (negative, spell false whole decimals) := by
  cases negative with
  | true => rfl
  | false =>
      obtain ⟨c, more, rfl⟩ := List.exists_cons_of_ne_nil h.whole_ne_nil
      have hDigit := h.whole_digits c List.mem_cons_self
      rw [sign.eq_def]
      split
      · obtain ⟨rfl, -⟩ := List.cons.inj ‹_›
        exact absurd hDigit (by decide)
      · obtain ⟨rfl, -⟩ := List.cons.inj ‹_›
        exact absurd hDigit (by decide)
      · rfl

theorem spell_ne_minus_zero (h : CanonicalParts places negative whole decimals) :
    spell negative whole decimals ≠ ['-', '0'] := fun hText => by
  have hSign := h.sign_spell
  rw [hText] at hSign
  obtain ⟨rfl, hBody⟩ := Prod.mk.inj hSign
  have hDigits := h.digits_spell
  rw [← hBody] at hDigits
  obtain ⟨rfl, hPoint⟩ := Prod.mk.inj hDigits
  exact absurd (h.zero_unsigned rfl (point_eq_nil_iff.mp hPoint.symm)) (by decide)

theorem denoted_spell (h : CanonicalParts places negative whole decimals) :
    denoted (spell negative whole decimals) =
      (if negative then -1 else 1) * (digitsValue (whole ++ decimals) / 10 ^ decimals.length) := by
  rw [denoted, h.sign_spell]
  simp only [h.digits_spell, fractionDigits_point h.decimals_digits]
  cases negative <;> simp

end CanonicalParts

end Numeral

namespace Fixed

/-- The decimals of a number of hundredths, without zeros at their end. -/
def decimalsOf (n : ℕ) : List Char :=
  if n % 10 ≠ 0 then [digit (n / 10 % 10), digit (n % 10)]
  else if n / 10 % 10 ≠ 0 then [digit (n / 10 % 10)]
  else []

/-- The numeral of a whole number of hundredths. -/
def hundredths (n : ℤ) : List Char :=
  Numeral.spell (n < 0) (digitsOf (n.natAbs / 100)) (decimalsOf n.natAbs)

theorem dropTrailing_concat_self (c : Char) (cs : List Char) :
    dropTrailing c (cs ++ [c]) = dropTrailing c cs := by
  simp [dropTrailing]

theorem dropTrailing_concat_of_ne {c d : Char} (h : d ≠ c) (cs : List Char) :
    dropTrailing c (cs ++ [d]) = cs ++ [d] := by
  simp [dropTrailing, h]

theorem dropTrailing_of_getLast? {c : Char} {cs : List Char} (h : cs.getLast? ≠ some c) :
    dropTrailing c cs = cs := by
  rcases List.eq_nil_or_concat' cs with rfl | ⟨cs, d, rfl⟩
  · rfl
  · exact dropTrailing_concat_of_ne (by simpa using h) cs

theorem paddedDigits_two {n : ℕ} (h : n < 100) :
    paddedDigits 2 n = [digit (n / 10), digit (n % 10)] := by
  rw [paddedDigits]
  by_cases hSmall : n < 10
  · rw [digitsOf_of_lt hSmall, Nat.div_eq_of_lt hSmall, Nat.mod_eq_of_lt hSmall]
    rfl
  · rw [digitsOf_of_le (not_lt.mp hSmall), digitsOf_of_lt (by omega)]
    rfl

theorem unsigned_two (n : ℕ) :
    unsigned 2 n = digitsOf (n / 100) ++ ['.', digit (n / 10 % 10), digit (n % 10)] := by
  have hPadded := paddedDigits_two (Nat.mod_lt n (by decide : 0 < 100))
  rw [Nat.mod_mod_of_dvd n (by decide), show n % 100 / 10 = n / 10 % 10 by omega] at hPadded
  rw [← hPadded]
  rfl

theorem decimalsOf_eq_nil_iff {n : ℕ} : decimalsOf n = [] ↔ n % 100 = 0 := by
  rw [decimalsOf]
  split_ifs <;> simp <;> omega

theorem canonicalParts_hundredths {negative : Bool} {n : ℕ} (h : n = 0 → negative = false) :
    Numeral.CanonicalParts 2 negative (digitsOf (n / 100)) (decimalsOf n) where
  whole_digits := isDigit_of_mem_digitsOf
  whole_ne_nil := digitsOf_ne_nil _
  whole_lead hLead := by rw [head?_digitsOf hLead]; exact digitsOf_zero
  decimals_digits := by
    have hTens := isDigit_digit (Nat.mod_lt (n / 10) (by decide : 0 < 10))
    have hOnes := isDigit_digit (Nat.mod_lt n (by decide : 0 < 10))
    rw [decimalsOf]
    split_ifs <;> simp [hTens, hOnes]
  decimals_few := by
    rw [decimalsOf]
    split_ifs <;> simp
  decimals_end := by
    rw [decimalsOf]
    split_ifs with h₁ h₂
    · simpa [digit_eq_zero_iff (Nat.mod_lt n (by decide : 0 < 10))] using h₁
    · simpa [digit_eq_zero_iff (Nat.mod_lt (n / 10) (by decide : 0 < 10))] using h₂
    · simp
  zero_unsigned hWhole hDecimals := h (by
    have hLead : (digitsOf (n / 100)).head? = some '0' := by rw [hWhole]; rfl
    have hSmall := head?_digitsOf hLead
    have hRest := decimalsOf_eq_nil_iff.mp hDecimals
    omega)

/-- Zeros at the end go, then the point if nothing follows it; digits of the whole part stay. -/
theorem dropTrailing_decimals {whole : List Char} (n : ℕ) (hWhole : whole.getLast? ≠ some '.') :
    dropTrailing '.' (dropTrailing '0' (whole ++ ['.', digit (n / 10 % 10), digit (n % 10)])) =
      whole ++ Numeral.point (decimalsOf n) := by
  have hPoint {k : ℕ} (hk : k < 10) : digit k ≠ '.' := fun h => by
    have := isDigit_digit hk
    rw [h] at this
    exact absurd this (by decide)
  have hTens : n / 10 % 10 < 10 := Nat.mod_lt _ (by decide)
  have hOnes : n % 10 < 10 := Nat.mod_lt _ (by decide)
  have hOne (c : Char) : whole ++ ['.', c] = (whole ++ ['.']) ++ [c] := by simp
  have hTwo (c d : Char) : whole ++ ['.', c, d] = (whole ++ ['.', c]) ++ [d] := by simp
  rw [Numeral.point, decimalsOf, hTwo]
  by_cases h₁ : n % 10 = 0
  · rw [if_neg (not_not.mpr h₁), (digit_eq_zero_iff hOnes).mpr h₁, dropTrailing_concat_self, hOne]
    by_cases h₂ : n / 10 % 10 = 0
    · have hKept : dropTrailing '0' (whole ++ ['.']) = whole ++ ['.'] :=
        dropTrailing_concat_of_ne (by decide) whole
      rw [if_neg (not_not.mpr h₂), (digit_eq_zero_iff hTens).mpr h₂, dropTrailing_concat_self, hKept,
        dropTrailing_concat_self, dropTrailing_of_getLast? hWhole, if_pos rfl, List.append_nil]
    · rw [if_pos h₂, dropTrailing_concat_of_ne ((digit_eq_zero_iff hTens).not.mpr h₂),
        dropTrailing_concat_of_ne (hPoint hTens), if_neg (List.cons_ne_nil _ _), hOne]
  · rw [if_pos h₁, dropTrailing_concat_of_ne ((digit_eq_zero_iff hOnes).not.mpr h₁),
      dropTrailing_concat_of_ne (hPoint hOnes), if_neg (List.cons_ne_nil _ _), hTwo]

/-- Only zero loses its sign. -/
theorem compact_unsigned (negative : Bool) (n : ℕ) :
    compact ((if negative then ['-'] else []) ++ unsigned 2 n) =
      hundredths (if negative then -n else n) := by
  have hLast : ((if negative then ['-'] else []) ++ digitsOf (n / 100)).getLast? ≠ some '.' := fun h => by
    rw [List.getLast?_append, Option.or_of_isSome (by simp [digitsOf_ne_nil])] at h
    exact absurd (isDigit_of_mem_digitsOf _ (List.mem_of_getLast? h)) (by decide)
  rw [compact, unsigned_two, ← List.append_assoc, dropTrailing_decimals n hLast]
  by_cases hZero : n = 0
  · subst hZero
    cases negative <;> simp [hundredths, Numeral.spell, Numeral.point, digitsOf_zero, decimalsOf]
  · have hParts : Numeral.CanonicalParts 2 negative (digitsOf (n / 100)) (decimalsOf n) :=
      canonicalParts_hundredths (absurd · hZero)
    rw [← Numeral.spell, if_neg hParts.spell_ne_minus_zero]
    cases negative <;> simp [hundredths, Numeral.spell, Nat.pos_of_ne_zero hZero]

theorem canonicalParts_natAbs (n : ℤ) :
    Numeral.CanonicalParts 2 (n < 0) (digitsOf (n.natAbs / 100)) (decimalsOf n.natAbs) :=
  canonicalParts_hundredths fun h => decide_eq_false (by omega)

theorem canonical_hundredths (n : ℤ) : Numeral.Canonical 2 (hundredths n) :=
  ⟨_, _, _, canonicalParts_natAbs n, rfl⟩

theorem digitsValue_decimalsOf (n : ℕ) :
    (Numeral.digitsValue (digitsOf (n / 100) ++ decimalsOf n) : ℚ) / 10 ^ (decimalsOf n).length =
      n / 100 := by
  have hOnes := Numeral.digitsValue_digit (Nat.mod_lt n (by decide : 0 < 10))
  have hTens := Numeral.digitsValue_digit (Nat.mod_lt (n / 10) (by decide : 0 < 10))
  have hSplit : (n : ℚ) = (n / 100 : ℕ) * 100 + (n / 10 % 10 : ℕ) * 10 + (n % 10 : ℕ) := by
    exact_mod_cast (by omega : n = n / 100 * 100 + n / 10 % 10 * 10 + n % 10)
  rw [Numeral.digitsValue_append, Numeral.digitsValue_digitsOf, hSplit, decimalsOf]
  split_ifs with h₁ h₂
  · rw [show [digit (n / 10 % 10), digit (n % 10)] = [digit (n / 10 % 10)] ++ [digit (n % 10)] from rfl,
      Numeral.digitsValue_append, hOnes, hTens]
    push_cast [List.length_append, List.length_singleton]
    ring
  · rw [hTens, not_not.mp h₁]
    push_cast [List.length_singleton]
    ring
  · rw [not_not.mp h₁, not_not.mp h₂]
    simp [Numeral.digitsValue]

theorem denoted_hundredths (n : ℤ) : Numeral.denoted (hundredths n) = n / 100 := by
  rw [hundredths, (canonicalParts_natAbs n).denoted_spell, digitsValue_decimalsOf]
  rcases lt_or_ge n 0 with h | h
  · obtain ⟨k, rfl⟩ := Int.exists_eq_neg_ofNat h.le
    rw [if_pos (decide_eq_true h), Int.natAbs_neg, Int.natAbs_natCast]
    push_cast
    ring
  · obtain ⟨k, rfl⟩ := Int.eq_ofNat_of_zero_le h
    rw [if_neg (by simp [h]), Int.natAbs_natCast, one_mul]
    rfl

end Fixed
end TimingDiagram
