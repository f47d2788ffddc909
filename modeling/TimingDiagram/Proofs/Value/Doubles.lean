import TimingDiagram.Proofs.Number.Bounds
import TimingDiagram.Proofs.Number.Firm
import TimingDiagram.Value.Quantity

/-! Computing with doubles. Operations on doubles and with whole numbers that are doubles give doubles
again, and these pass every check, be they infinite or no number. Only where a double is turned into a
whole number it has to be finite, and positions on the time axis are. -/
namespace TimingDiagram

open Binary

namespace Number

variable {n : Number} {x y : Float}

theorem combine_real_left (onWhole : Int → Int → Int) (onReal : Float → Float → Float)
    (hn : n.toFloat = .ok y) : combine onWhole onReal (.real x) n = .ok (.real (onReal x y)) := by
  have hBoth : combine onWhole onReal (.real x) n = do return .real (onReal x (← n.toFloat)) := by
    cases n <;> rfl
  rw [hBoth, hn]
  rfl

theorem combine_real_right (onWhole : Int → Int → Int) (onReal : Float → Float → Float)
    (hn : n.toFloat = .ok y) : combine onWhole onReal n (.real x) = .ok (.real (onReal y x)) := by
  have hBoth : combine onWhole onReal n (.real x) = do return .real (onReal (← n.toFloat) x) := by
    cases n <;> rfl
  rw [hBoth, hn]
  rfl

theorem div_real_left (hn : n.toFloat = .ok y) (hy : (y == 0.0) = false) :
    div (.real x) n = .ok (.real (x / y)) := by
  have hBoth : div (.real x) n = do
      let y ← n.toFloat
      if y == 0.0 then .error .divisionByZero else return .real (x / y) := by
    cases n <;> rfl
  rw [hBoth, hn, ok_bind, if_neg (by simp [hy])]
  rfl

theorem div_real_right (hn : n.toFloat = .ok x) (hy : (y == 0.0) = false) :
    div n (.real y) = .ok (.real (x / y)) := by
  have hBoth : div n (.real y) = do
      let x ← n.toFloat
      if y == 0.0 then .error .divisionByZero else return .real (x / y) := by
    cases n <;> rfl
  rw [hBoth, hn, ok_bind, if_neg (by simp [hy])]
  rfl

end Number

namespace Quantity

variable {m n r : Number}

theorem known_add (h : m.add n = .ok r) : known m + known n = known r := by
  change (⟨do return Value.number (← m.add n)⟩ : Quantity) = _
  rw [h]
  rfl

theorem known_sub (h : m.sub n = .ok r) : known m - known n = known r := by
  change (⟨do return Value.number (← m.sub n)⟩ : Quantity) = _
  rw [h]
  rfl

theorem known_mul [Memory] (h : m.mul n = .ok r) : known m * known n = known r := by
  change (⟨do return Value.number (← m.mul n)⟩ : Quantity) = _
  rw [h]
  rfl

theorem known_div (h : m.div n = .ok r) : known m / known n = known r := by
  change (⟨do return Value.number (← m.div n)⟩ : Quantity) = _
  rw [h]
  rfl

theorem checked_known [Memory] (n : Number) : Scalar.checked (known n) = .ok (known n) := rfl

/-- One of two numbers is chosen. -/
theorem choose_known (second : Ordering) (m n : Number) :
    choose second (known m) (known n) = known m ∨ choose second (known m) (known n) = known n := by
  change (⟨.ok (if m.order n = some second then .number n else .number m)⟩ : Quantity) = _ ∨
    (⟨.ok (if m.order n = some second then .number n else .number m)⟩ : Quantity) = _
  split_ifs
  · exact .inr rfl
  · exact .inl rfl

/-- A quantity that is a double. -/
def IsDouble (a : Quantity) : Prop := ∃ x : Float, a = known (.real x)

/-- A quantity that is a double or is the whole number that a double is. -/
def IsOperand (a : Quantity) : Prop := ∃ n x, a = known n ∧ Number.toFloat n = .ok x

/-- A quantity that is an operand other than zero. -/
def IsDivisor (a : Quantity) : Prop :=
  ∃ n x, a = known n ∧ Number.toFloat n = .ok x ∧ (x == 0.0) = false

/-- A position that is far from the largest double. -/
def IsPosition (a : Quantity) : Prop :=
  (∃ n : Int, n.natAbs ≤ 2 ^ 70 ∧ a = known (.whole n)) ∨
    ∃ x, Within 70 x ∧ a = known (.real x)

variable {a b c : Quantity} {k : Int}

theorem IsDouble.isOperand (h : IsDouble a) : IsOperand a := by
  obtain ⟨x, rfl⟩ := h
  exact ⟨.real x, x, rfl, rfl⟩

theorem isOperand_whole (h : k.natAbs ≤ 2 ^ 80) : IsOperand (known (.whole k)) :=
  ⟨.whole k, _, rfl, toFloat_whole h (by decide)⟩

theorem IsDouble.add (ha : IsDouble a) (hb : IsOperand b) : IsDouble (a + b) := by
  obtain ⟨x, rfl⟩ := ha
  obtain ⟨n, y, rfl, hn⟩ := hb
  exact ⟨_, known_add (Number.combine_real_left _ _ hn)⟩

theorem IsOperand.add (ha : IsOperand a) (hb : IsDouble b) : IsDouble (a + b) := by
  obtain ⟨n, y, rfl, hn⟩ := ha
  obtain ⟨x, rfl⟩ := hb
  exact ⟨_, known_add (Number.combine_real_right _ _ hn)⟩

theorem IsDouble.sub (ha : IsDouble a) (hb : IsOperand b) : IsDouble (a - b) := by
  obtain ⟨x, rfl⟩ := ha
  obtain ⟨n, y, rfl, hn⟩ := hb
  exact ⟨_, known_sub (Number.combine_real_left _ _ hn)⟩

theorem IsDouble.mul [Memory] (ha : IsDouble a) (hb : IsOperand b) : IsDouble (a * b) := by
  obtain ⟨x, rfl⟩ := ha
  obtain ⟨n, y, rfl, hn⟩ := hb
  exact ⟨_, known_mul (Number.combine_real_left _ _ hn)⟩

theorem IsOperand.mul [Memory] (ha : IsOperand a) (hb : IsDouble b) : IsDouble (a * b) := by
  obtain ⟨n, y, rfl, hn⟩ := ha
  obtain ⟨x, rfl⟩ := hb
  exact ⟨_, known_mul (Number.combine_real_right _ _ hn)⟩

theorem IsDouble.div (ha : IsDouble a) (hb : IsDivisor b) : IsDouble (a / b) := by
  obtain ⟨x, rfl⟩ := ha
  obtain ⟨n, y, rfl, hn, hy⟩ := hb
  exact ⟨_, known_div (Number.div_real_left hn hy)⟩

theorem IsDouble.choose (second : Ordering) (ha : IsDouble a) (hb : IsDouble b) :
    IsDouble (choose second a b) := by
  obtain ⟨x, rfl⟩ := ha
  obtain ⟨y, rfl⟩ := hb
  rcases choose_known second (.real x) (.real y) with h | h
  · exact ⟨x, h⟩
  · exact ⟨y, h⟩

theorem IsOperand.toFraction (h : IsOperand a) : IsDouble (toFraction a) := by
  obtain ⟨n, x, rfl, hn⟩ := h
  refine ⟨x, ?_⟩
  change (⟨do return .number (.real (← n.toFloat))⟩ : Quantity) = _
  rw [hn]
  rfl

theorem IsDouble.filled [Memory] {length : Nat} (h : IsDouble a) (hShort : length < lengthLimit)
    (hRoom : length ≤ Memory.capacity) : filled length a = .ok (List.replicate length a) := by
  obtain ⟨x, rfl⟩ := h
  rw [Quantity.filled, if_neg (not_le.mpr hShort), Room.check, if_neg (not_lt.mpr hRoom)]
  rfl

theorem IsDouble.fixed [Memory] (places : Nat) (h : IsDouble a) : Succeeds (Scalar.fixed places a) := by
  obtain ⟨x, rfl⟩ := h
  exact ⟨_, rfl⟩

theorem IsDouble.compact [Memory] (places : Nat) (h : IsDouble a) : Succeeds (Scalar.compact places a) := by
  obtain ⟨x, rfl⟩ := h
  exact ⟨_, rfl⟩

section Positions

theorem natAbs_le (h : 0 ≤ k ∧ k < 2 ^ 64) {bits : Nat} (hBits : 64 ≤ bits) :
    k.natAbs ≤ 2 ^ bits := by
  have hSize : k.natAbs < 2 ^ 64 := by omega
  exact hSize.le.trans (Nat.pow_le_pow_right two_pos hBits)

theorem within_half : Within 0 (ofRatio (decide ((1 : Int) < 0)) (Int.natAbs 1) 2) :=
  within_iff.mpr ⟨⟨false, 2 ^ 52, -53⟩, rfl, by norm_num [Dyadic.magnitude]⟩

theorem isPosition_halfway [Memory] (h : k.natAbs ≤ 2 ^ 64) :
    IsPosition (known (.whole k) + Scalar.fraction 1 2) := by
  refine .inr ⟨_, ?_, known_add (Number.combine_real_right _ _ (toFloat_whole h (by decide)))⟩
  exact (within_add (within_nearest h (by decide)) (within_half.mono (by decide)) (by decide)).mono
    (by decide)

/-- Half of a number within a bound, up to rounding. -/
theorem within_halved {x : Float} {j : Nat} (hx : Within j x) (hj : j + 1 ≤ 900) :
    Within (j + 1) (x / ofRatio (decide ((2 : Int) < 0)) (Int.natAbs 2) 1) :=
  within_div (j := 0) hx unpack_nearest_two (by norm_num) hj

theorem isPosition_centre [Memory] {m n : Int} (hm : m.natAbs ≤ 2 ^ 64) (hn : n.natAbs ≤ 2 ^ 64) :
    IsPosition (known (.whole m) + known (.whole n) / Scalar.fraction 2 1) := by
  have hHalf : known (.whole n) / Scalar.fraction 2 1 = known (.real (Number.nearest n /
      ofRatio (decide ((2 : Int) < 0)) (Int.natAbs 2) 1)) :=
    known_div (Number.div_real_right (toFloat_whole hn (by decide)) (by decide))
  rw [hHalf]
  refine .inr ⟨_, ?_, known_add (Number.combine_real_right _ _ (toFloat_whole hm (by decide)))⟩
  exact (within_add ((within_nearest hm (by decide)).mono (by decide))
    (within_halved (within_nearest hn (by decide)) (by decide)) (by decide)).mono (by decide)

theorem IsPosition.sub_whole (h : IsPosition a) (hk : k.natAbs ≤ 2 ^ 70) :
    IsOperand (a - known (.whole k)) := by
  rcases h with ⟨n, hn, rfl⟩ | ⟨x, -, rfl⟩
  · rw [known_sub (r := .whole (n - k)) rfl]
    refine isOperand_whole ?_
    omega
  · exact (IsDouble.sub ⟨x, rfl⟩ (isOperand_whole (hk.trans (by decide)))).isOperand

/-- A position has a cycle that it falls into. -/
theorem IsPosition.truncate [Memory] (h : IsPosition a) :
    ∃ i : Int, Scalar.truncate a = .ok i ∧ i.natAbs ≤ 2 ^ 70 := by
  rcases h with ⟨n, hn, rfl⟩ | ⟨x, hx, rfl⟩
  · exact ⟨n, rfl, hn⟩
  · exact Within.truncate hx

end Positions

/-- Doubles are firm, whole numbers of up to 64 digits can be computed with, and there is room for as
many doubles as an array and the memory hold. -/
instance [Memory] : FirmScalar Quantity where
  Firm := IsDouble
  Operand := IsOperand
  Divisor := IsDivisor
  Position := IsPosition
  Small n := 0 ≤ n ∧ n < 2 ^ 64
  Storable n := n < lengthLimit ∧ n ≤ Memory.capacity
  small_of_le h hLow hLe := ⟨hLow, hLe.trans_lt h.2⟩
  small_eight := ⟨by decide, by decide⟩
  storable_zero := ⟨by decide, Nat.zero_le _⟩
  operand_of_firm := IsDouble.isOperand
  operand_whole h := isOperand_whole (natAbs_le h (by decide))
  firm_fraction n d := ⟨_, rfl⟩
  firm_add := IsDouble.add
  firm_add' := IsOperand.add
  firm_sub := IsDouble.sub
  firm_mul := IsDouble.mul
  firm_mul' := IsOperand.mul
  firm_div := IsDouble.div
  firm_max := IsDouble.choose .lt
  firm_min := IsDouble.choose .gt
  divisor_two := ⟨.whole 2, _, rfl, toFloat_whole (k := 1) (by decide) (by decide), by decide⟩
  position_whole h := .inl ⟨_, natAbs_le h (by decide), rfl⟩
  position_halfway h := isPosition_halfway (natAbs_le h le_rfl)
  position_centre hm hn := isPosition_centre (natAbs_le hm le_rfl) (natAbs_le hn le_rfl)
  operand_sub hc hn := hc.sub_whole (natAbs_le hn (by decide))
  truncate_position hc := by
    obtain ⟨i, hi, hSize⟩ := hc.truncate
    exact ⟨i, hi, hc.sub_whole (by omega)⟩
  checked_firm h := by
    obtain ⟨x, rfl⟩ := h
    exact checked_known _
  firm_toFraction := IsOperand.toFraction
  filled_firm hRoom h := h.filled hRoom.1 hRoom.2
  fixed_firm places _ h := h.fixed places
  compact_firm places _ h := h.compact places

end Quantity
end TimingDiagram
