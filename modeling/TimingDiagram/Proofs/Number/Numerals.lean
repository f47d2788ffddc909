import TimingDiagram.Figure.Primitive
import TimingDiagram.Proofs.Number.Hundredths
import TimingDiagram.Proofs.Number.Nearest
import TimingDiagram.Value.Quantity

/-! The numerals of coordinates. A finite number is written as the canonical numeral of its nearest
hundredth, and the double that this numeral is read as is written in the same way. -/
namespace TimingDiagram

namespace Fixed

/-- A quotient is written as the nearest hundredth. -/
theorem compact_ofRatio (num : ℕ) {den : ℕ} (hDen : 0 < den) :
    ∃ n : ℕ, Rounds (100 * (num / den)) n ∧ ∀ negative : Bool,
      compact (ofRatio 2 negative num den) = hundredths (if negative then -n else n) := by
  refine ⟨roundDiv (num * 100) den, ?_, fun negative => ?_⟩
  · have hRounds := rounds_roundDiv (num * 100) hDen
    rwa [Nat.cast_mul, Nat.cast_ofNat, mul_comm (num : ℚ), mul_div_assoc] at hRounds
  · rw [← compact_unsigned]
    cases negative <;> rfl

theorem hundredths_injective : Function.Injective hundredths := fun m n h => by
  have hDenoted := congrArg Numeral.denoted h
  rw [denoted_hundredths, denoted_hundredths, div_left_inj' (by norm_num)] at hDenoted
  exact_mod_cast hDenoted

/-- What the numeral of hundredths denotes is written as that numeral. -/
theorem compact_of_denoted {k : ℤ} {negative : Bool} {num den : ℕ} (hDen : 0 < den)
    (h : Numeral.denoted (hundredths k) = if negative then -(num / den : ℚ) else num / den) :
    compact (ofRatio 2 negative num den) = hundredths k := by
  obtain ⟨m, hm, hSame⟩ := compact_ofRatio num hDen
  rw [denoted_hundredths, div_eq_iff (by norm_num)] at h
  rw [hSame]
  congr 1
  refine Rounds.unique ?_ (rounds_self k)
  rw [h]
  cases negative with
  | false => simpa [mul_comm] using hm
  | true => simpa [mul_comm] using hm.neg

end Fixed

namespace Numeral

theorem withoutUnderscores?_eq_self {cs : List Char} (h : ∀ c ∈ cs, c ≠ '_') (afterDigit : Bool) :
    withoutUnderscores? afterDigit cs = some cs := by
  induction cs generalizing afterDigit with
  | nil => rfl
  | cons c cs ih =>
      rw [withoutUnderscores?, ih fun d hd => h d (List.mem_cons_of_mem c hd)]
      · rfl
      · exact h c List.mem_cons_self

namespace CanonicalParts

variable {places : ℕ} {negative : Bool} {whole decimals : List Char}

theorem mem_spell (h : CanonicalParts places negative whole decimals) :
    ∀ c ∈ spell negative whole decimals, c.isDigit = true ∨ c = '-' ∨ c = '.' := by
  intro c hc
  rw [spell, List.mem_append, List.mem_append] at hc
  rcases hc with (hc | hc) | hc
  · cases negative <;> simp_all
  · exact .inl (h.whole_digits c hc)
  · rw [point] at hc
    split_ifs at hc
    · simp at hc
    · rcases List.mem_cons.mp hc with rfl | hc
      · exact .inr (.inr rfl)
      · exact .inl (h.decimals_digits c hc)

/-- What numerals are written with is not blank and no underscore. -/
theorem plain_of_mem (h : CanonicalParts places negative whole decimals) {c : Char}
    (hc : c ∈ spell negative whole decimals) : Text.isBlank c = false ∧ c ≠ '_' := by
  rcases h.mem_spell c hc with hDigit | rfl | rfl
  · have hRange : 48 ≤ c.toNat ∧ c.toNat ≤ 57 := by
      simpa [Char.isDigit, UInt32.le_iff_toNat_le] using hDigit
    refine ⟨?_, ?_⟩
    · simp [Text.isBlank]
      omega
    · rintro rfl
      exact absurd hRange (by decide)
  · exact ⟨rfl, by decide⟩
  · exact ⟨rfl, by decide⟩

/-- A canonical numeral is read by its parts. -/
theorem read?_spell (h : CanonicalParts places negative whole decimals) :
    read? (String.ofList (spell negative whole decimals)) =
      some (fraction negative whole decimals none) := by
  have hTrim : Text.trimBlanks (spell negative whole decimals) = spell negative whole decimals := by
    have hOpens {cs : List Char} (hcs : ∀ c ∈ cs, Text.isBlank c = false) :
        Text.opens Text.isBlank cs = false := by
      simpa using Text.opens_append hcs (Text.opens_nil _)
    refine Text.trimBlanks_eq_self (hOpens fun c hc => (h.plain_of_mem hc).1) ?_
    rw [← Text.opens_reverse]
    exact hOpens fun c hc => (h.plain_of_mem (List.mem_reverse.mp hc)).1
  have hWhole : (whole.isEmpty && decimals.isEmpty) = false := by
    rw [List.isEmpty_eq_false_iff.mpr h.whole_ne_nil, Bool.false_and]
  rw [read?, String.toList_ofList, hTrim,
    withoutUnderscores?_eq_self fun c hc => (h.plain_of_mem hc).2]
  simp only [Option.bind_eq_bind, Option.bind_some, h.sign_spell, h.digits_spell,
    fractionDigits_point h.decimals_digits, hWhole]
  rfl

end CanonicalParts
end Numeral

/-- A number has at least the power of ten that its last digit but one stands for. -/
theorem pow_length_digitsOf_le {n : ℕ} (hPos : 0 < n) : 10 ^ ((digitsOf n).length - 1) ≤ n := by
  induction n using digitsOf.induct with
  | case1 n h => rwa [digitsOf_of_lt h]
  | case2 n h ih =>
      have hTens : 0 < n / 10 := by omega
      have hSome : 0 < (digitsOf (n / 10)).length := List.length_pos_iff.mpr (digitsOf_ne_nil _)
      have hPower := ih hTens
      rw [digitsOf_of_le (not_lt.mp h), List.length_append, List.length_singleton, Nat.add_sub_cancel]
      rw [show (digitsOf (n / 10)).length = (digitsOf (n / 10)).length - 1 + 1 by omega, pow_succ]
      omega

namespace Dyadic

variable {d : Dyadic}

theorem magnitude_add_one_le_pow (hDigits : d.mantissa < 2 ^ 53) {k : ℕ} (hMost : d.exponent ≤ k) :
    d.magnitude + 1 ≤ 2 ^ (53 + k) := by
  have hMantissa : (d.mantissa : ℚ) ≤ 2 ^ 53 - 1 := by
    have : (d.mantissa : ℚ) + 1 ≤ 2 ^ 53 := by exact_mod_cast hDigits
    linarith
  have hPower : (2 : ℚ) ^ d.exponent ≤ 2 ^ k := by
    rw [← zpow_natCast]
    exact zpow_le_zpow_right₀ one_le_two hMost
  have hOne : (1 : ℚ) ≤ 2 ^ k := one_le_pow₀ one_le_two
  calc d.magnitude + 1
    _ ≤ (2 ^ 53 - 1) * 2 ^ k + 2 ^ k := by
        rw [magnitude]
        gcongr
    _ = 2 ^ (53 + k) := by ring

/-- A finite double lies one below the power of two that is past all of them. -/
theorem magnitude_add_one_le (hDigits : d.mantissa < 2 ^ 53) (hMost : d.exponent ≤ 971) :
    d.magnitude + 1 ≤ 2 ^ 1024 := by
  have hTop : d.exponent ≤ (971 : ℕ) := by exact_mod_cast hMost
  have hBound := magnitude_add_one_le_pow hDigits hTop
  rwa [show 53 + 971 = 1024 from rfl] at hBound

theorem rounds_value {n : ℕ} (h : Rounds (100 * d.magnitude) n) :
    Rounds (100 * d.value) (if d.negative then -(n : ℤ) else n) := by
  rw [value]
  split_ifs
  · rw [mul_neg]
    exact h.neg
  · exact h

end Dyadic

namespace Binary

/-- A decimal fraction of ordinary size is the quotient of two numbers. -/
theorem ofDecimal_neg (negative : Bool) {digits places : ℕ} (hPos : 0 < digits)
    (hSize : (digitsOf digits).length ≤ 400) (hPlaces : places ≤ 400) :
    ofDecimal negative digits (0 - places) = ofRatio negative digits (10 ^ places) := by
  have hLow : ¬ ((0 - places : ℤ) + (digitsOf digits).length < -400) := by omega
  have hHigh : ¬ (400 < (0 - places : ℤ) + (digitsOf digits).length) := by omega
  have hWhole : (0 - places : ℤ).toNat = 0 := by omega
  have hDecimal : (-(0 - places : ℤ)).toNat = places := by omega
  simp only [ofDecimal, hLow, hHigh, hPos.ne', decide_false, Bool.or_self, Bool.false_eq_true,
    if_false, hWhole, hDecimal]
  exact congrArg₂ (ofRatio negative) (Nat.mul_one digits) rfl

theorem read_ofDecimal_zero (negative : Bool) (exponent : ℤ) :
    read (ofDecimal negative 0 exponent) = .finite ⟨negative, 0, -1074⟩ :=
  read_ofMagnitude negative (by decide)

end Binary

/-- Hundredths of a finite double have few digits. -/
theorem length_digitsOf_le {d : Dyadic} (hDigits : d.mantissa < 2 ^ 53) (hMost : d.exponent ≤ 971)
    {m n : ℕ} (hRounds : Rounds (100 * d.magnitude) n) (hLess : m ≤ n) (hPos : 0 < m) :
    (digitsOf m).length ≤ 400 := by
  have hTop := d.magnitude_add_one_le hDigits hMost
  have hBelow : n < 100 * 2 ^ 1024 := by
    have hNear := (abs_le.mp hRounds.near).1
    have : (n : ℚ) < 100 * 2 ^ 1024 := by
      generalize (2 : ℚ) ^ 1024 = top at *
      push_cast at hNear
      linarith
    exact_mod_cast this
  by_contra hMany
  have hLong : 10 ^ 400 ≤ n := calc
    10 ^ 400 ≤ 10 ^ ((digitsOf m).length - 1) :=
      pow_le_pow_right₀ (by decide) (Nat.le_pred_of_lt (not_le.mp hMany))
    _ ≤ m := pow_length_digitsOf_le hPos
    _ ≤ n := hLess
  have hApart : 100 * 2 ^ 1024 < 10 ^ 400 := by decide +kernel
  exact absurd (hBelow.trans hApart) (not_lt.mpr hLong)

/-- The numeral of hundredths is read as a quotient by a power of ten. -/
theorem Fixed.exists_read?_hundredths (k : ℤ) :
    ∃ digits places : ℕ, places ≤ 2 ∧ digits * 100 = k.natAbs * 10 ^ places ∧
      Numeral.read? (String.ofList (hundredths k)) =
        some (Binary.ofDecimal (decide (k < 0)) digits (0 - places)) := by
  have hParts := canonicalParts_natAbs k
  have hValue := digitsValue_decimalsOf k.natAbs
  rw [div_eq_div_iff (by positivity) (by norm_num)] at hValue
  refine ⟨_, _, hParts.decimals_few, by exact_mod_cast hValue, ?_⟩
  rw [hundredths, hParts.read?_spell, Numeral.fraction, Option.getD_none]

/-- What is closer to the hundredths of a number than the number itself has the same hundredths. -/
theorem Rounds.hundredths_of_closer {x y : ℚ} {n : ℤ} (h : Rounds (100 * x) n)
    (hCloser : |y - n / 100| ≤ |x - n / 100|) : Rounds (100 * y) n := by
  have hScale (x : ℚ) : |100 * x - n| = 100 * |x - n / 100| := by
    rw [show 100 * x - n = 100 * (x - n / 100) by ring, abs_mul, abs_of_pos (by norm_num)]
  refine h.of_closer ?_
  rw [hScale, hScale]
  linarith

/-- The numeral of a nearest hundredth is read as a double that has the same nearest hundredth. -/
theorem read_hundredths {d : Dyadic} (hDigits : d.mantissa < 2 ^ 53) (hLeast : -1074 ≤ d.exponent)
    (hMost : d.exponent ≤ 971) {n : ℕ} (hRounds : Rounds (100 * d.magnitude) n) (negative : Bool) :
    ∃ z e, Numeral.read? (String.ofList (Fixed.hundredths (if negative then -(n : ℤ) else n))) = some z ∧
      Binary.read z = .finite e ∧ Rounds (100 * e.magnitude) n ∧ (n ≠ 0 → e.negative = negative) := by
  obtain ⟨k, hk⟩ : ∃ k : ℤ, k = if negative then -(n : ℤ) else n := ⟨_, rfl⟩
  have hAbs : k.natAbs = n := by rw [hk]; cases negative <;> simp
  have hSign (hSome : n ≠ 0) : decide (k < 0) = negative := by
    rw [hk]
    cases negative <;> simp [Nat.pos_of_ne_zero hSome]
  obtain ⟨digits, places, hPlaces, hCross, hText⟩ := Fixed.exists_read?_hundredths k
  rw [hAbs] at hCross
  rw [← hk, hText]
  rcases Nat.eq_zero_or_pos n with rfl | hPos
  · obtain rfl : digits = 0 := by omega
    refine ⟨_, _, rfl, Binary.read_ofDecimal_zero _ _, ?_, fun h => absurd rfl h⟩
    simpa [Dyadic.magnitude] using rounds_self 0
  · have hSome : 0 < digits := by
      have : 0 < digits * 100 := hCross ▸ Nat.mul_pos hPos (by positivity)
      omega
    have hLess : digits ≤ n := by
      have := Nat.mul_le_mul_left n (Nat.pow_le_pow_right (by decide : 0 < 10) hPlaces)
      omega
    have hQuotient : (digits : ℚ) / (10 ^ places : ℕ) = n / 100 := by
      rw [div_eq_div_iff (by positivity) (by norm_num)]
      exact_mod_cast hCross
    have hRoom : (digits : ℚ) / (10 ^ places : ℕ) + |d.magnitude - digits / (10 ^ places : ℕ)| <
        2 ^ 1024 := by
      have hNear : |d.magnitude - n / 100| ≤ 1 / 200 := by
        have := abs_le.mp hRounds.near
        push_cast at this
        rw [abs_le]
        constructor <;> linarith
      have hTop := d.magnitude_add_one_le hDigits hMost
      rw [hQuotient]
      generalize (2 : ℚ) ^ 1024 = top at *
      linarith [(abs_le.mp hNear).1]
    obtain ⟨e, hRead, hNegative, hCloser⟩ := Binary.read_ofRatio (decide (k < 0)) hSome
      (Nat.pow_pos (by decide)) hDigits hLeast hRoom
    rw [hQuotient] at hCloser
    rw [Binary.ofDecimal_neg _ hSome (length_digitsOf_le hDigits hMost hRounds hLess hSome) (by omega)]
    exact ⟨_, e, rfl, hRead, hRounds.hundredths_of_closer hCloser, fun h => hNegative.trans (hSign h)⟩

namespace Styles

theorem numeral_eq [Memory] {a : Number} {x : Float} {d : Dyadic} (hFloat : a.toFloat = .ok x)
    (hRead : Binary.read x = .finite d) :
    numeral (Quantity.known a) =
      .ok (String.ofList (Fixed.compact (Fixed.ofRatio 2 d.negative d.num d.den))) := by
  change (do return String.ofList (Fixed.compact (Fixed.ofFloat 2 (← a.toFloat))) : Except Fault String) = _
  rw [hFloat]
  change Except.ok (String.ofList (Fixed.compact (Fixed.ofFloat 2 x))) = _
  rw [Fixed.ofFloat, hRead]

/-- A finite number is written as its nearest hundredth, with its own sign. -/
theorem numeral_hundredths [Memory] (a : Number) {x : Float} {d : Dyadic} (hFloat : a.toFloat = .ok x)
    (hRead : Binary.read x = .finite d) :
    ∃ n : ℕ, Rounds (100 * d.magnitude) n ∧ numeral (Quantity.known a) =
      .ok (String.ofList (Fixed.hundredths (if d.negative then -(n : ℤ) else n))) := by
  obtain ⟨n, hRounds, hText⟩ := Fixed.compact_ofRatio d.num d.den_pos
  rw [d.num_div_den] at hRounds
  exact ⟨n, hRounds, by rw [numeral_eq hFloat hRead, hText]⟩

/-- The double that a numeral is read as is written in the same way. -/
theorem numeral_reread [Memory] {x : Float} {d : Dyadic} (hRead : Binary.read x = .finite d) {n : ℕ}
    (hRounds : Rounds (100 * d.magnitude) n) :
    ∃ z, Numeral.read? (String.ofList (Fixed.hundredths (if d.negative then -(n : ℤ) else n))) = some z ∧
      numeral (Quantity.known (.real z)) =
        .ok (String.ofList (Fixed.hundredths (if d.negative then -(n : ℤ) else n))) := by
  obtain ⟨hDigits, hLeast, hMost⟩ := Binary.finite_bounds hRead
  obtain ⟨z, e, hz, hRead', hRounds', hSign⟩ :=
    read_hundredths hDigits hLeast hMost hRounds d.negative
  obtain ⟨m, hm, hText⟩ := numeral_hundredths (.real z) rfl hRead'
  obtain rfl : m = n := by exact_mod_cast hm.unique hRounds'
  refine ⟨z, hz, ?_⟩
  rw [hText]
  rcases eq_or_ne m 0 with rfl | hSome
  · simp
  · rw [hSign hSome]

/-- A number whose double is finite is written as a canonical numeral, never as a zero with a sign. The
numeral denotes the nearest hundredth, a half going to the even one; it is that of another such number
just when both have the same nearest hundredth; and what it denotes is written in the same way, as a
quotient and as the double that the text is read as. -/
theorem numeral_canonical [Memory] (a : Number) {x : Float} {d : Dyadic} (hFloat : a.toFloat = .ok x)
    (hRead : Binary.read x = .finite d) :
    ∃ cs : List Char, numeral (Quantity.known a) = .ok (String.ofList cs) ∧
      Numeral.Canonical 2 cs ∧ cs ≠ ['-', '0'] ∧
      (∃ n : ℤ, Rounds (100 * d.value) n ∧ Numeral.denoted cs = n / 100) ∧
      (∀ (b : Number) (y : Float) (e : Dyadic), b.toFloat = .ok y → Binary.read y = .finite e →
        (numeral (Quantity.known b) = .ok (String.ofList cs) ↔
          ∃ n, Rounds (100 * d.value) n ∧ Rounds (100 * e.value) n)) ∧
      (∀ (negative : Bool) (num den : ℕ), 0 < den →
        Numeral.denoted cs = (if negative then -(num / den : ℚ) else num / den) →
        Fixed.compact (Fixed.ofRatio 2 negative num den) = cs) ∧
      ∃ z, Numeral.read? (String.ofList cs) = some z ∧
        numeral (Quantity.known (.real z)) = .ok (String.ofList cs) := by
  obtain ⟨n, hRounds, hText⟩ := numeral_hundredths a hFloat hRead
  obtain ⟨k, hk⟩ : ∃ k : ℤ, k = if d.negative then -(n : ℤ) else n := ⟨_, rfl⟩
  have hValue : Rounds (100 * d.value) k := hk ▸ Dyadic.rounds_value hRounds
  rw [← hk] at hText
  refine ⟨_, hText, Fixed.canonical_hundredths k, (Fixed.canonicalParts_natAbs k).spell_ne_minus_zero,
    ⟨k, hValue, Fixed.denoted_hundredths k⟩, ?_, ?_, ?_⟩
  · intro b y e hFloat' hRead'
    obtain ⟨m, hRounds', hText'⟩ := numeral_hundredths b hFloat' hRead'
    have hValue' := Dyadic.rounds_value hRounds'
    rw [hText', Except.ok.injEq, String.ofList_inj, Fixed.hundredths_injective.eq_iff]
    constructor
    · intro hSame
      exact ⟨k, hValue, hSame ▸ hValue'⟩
    · rintro ⟨j, hj, hj'⟩
      exact (hValue'.unique hj').trans (hj.unique hValue)
  · intro negative num den hDen hDenoted
    exact Fixed.compact_of_denoted hDen hDenoted
  · exact hk ▸ numeral_reread hRead hRounds

/-- An eighth below zero is halfway between two hundredths, and goes to the even one. -/
theorem numeral_canonical_eighth :
    ∃ cs : List Char,
      numeral (Quantity.known (.real (Binary.ofRatio true 1 8))) = .ok (String.ofList cs) ∧
      Numeral.Canonical 2 cs ∧ Numeral.denoted cs = -12 / 100 := by
  have hRead : Binary.read (Binary.ofRatio true 1 8) = .finite ⟨true, 2 ^ 52, -55⟩ := by rfl
  obtain ⟨cs, hText, hCanonical, -, ⟨n, hRounds, hDenoted⟩, -⟩ :=
    numeral_canonical (.real (Binary.ofRatio true 1 8)) rfl hRead
  have hHalf : Rounds (100 * Dyadic.value ⟨true, 2 ^ 52, -55⟩) (-12) := by
    refine ⟨?_, fun _ => by decide⟩
    norm_num [Dyadic.value, Dyadic.magnitude]
  refine ⟨cs, hText, hCanonical, ?_⟩
  rw [hDenoted, hRounds.unique hHalf]
  norm_num

end Styles
end TimingDiagram
