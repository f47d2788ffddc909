import TimingDiagram.Options
import TimingDiagram.Proofs.Number.Checked
import TimingDiagram.Proofs.Number.Zeros

/-! The checks of options in the arithmetic that figures are computed in. Options that pass have the
sizes that a figure needs, where these are numbers, and options whose checks can be computed at all are
refused with the defect that they have. -/
namespace TimingDiagram

namespace Quantity

variable {a b : Quantity} {m n : Number}

/-- Whether a quantity is the result of an operation that has none. -/
def IsNaN (a : Quantity) : Prop := ∃ n, a.toNumber = .ok n ∧ n.IsNaN

/-- Whether a quantity can be held as a fraction, if it is a number. -/
def InRange (a : Quantity) : Prop := ∀ n, a.toNumber = .ok n → Succeeds n.toFloat

theorem inRange_real (x : Float) : (known (.real x)).InRange := by
  rintro _ ⟨⟩
  exact ⟨x, rfl⟩

theorem toNumber_eq_ok_iff : a.toNumber = .ok n ↔ ∃ v, a.outcome = .ok v ∧ v.asNumber = .ok n :=
  bind_eq_ok_iff

/-- Numbers are in the order of what they are, truth values included. -/
theorem order_eq (ha : a.toNumber = .ok m) (hb : b.toNumber = .ok n) : a.order b = m.order n := by
  obtain ⟨v, hv, hm⟩ := toNumber_eq_ok_iff.mp ha
  obtain ⟨w, hw, hn⟩ := toNumber_eq_ok_iff.mp hb
  have hOrder : v.order w = do return (← v.asNumber).order (← w.asNumber) := by
    cases v <;> cases w <;> first | rfl | cases hm
  rw [order, hv, hw]
  change (v.order w).toOption.join = m.order n
  rw [hOrder, hm, hn]
  rfl

theorem order_swap (ha : a.toNumber = .ok m) (hb : b.toNumber = .ok n) :
    a.order b = (b.order a).map Ordering.swap := by
  rw [order_eq ha hb, order_eq hb ha, Number.order_swap]

theorem isNaN_iff (h : a.toNumber = .ok m) : a.IsNaN ↔ m.IsNaN := by
  simp [IsNaN, h]

theorem order_eq_none_iff (ha : a.toNumber = .ok m) (hb : b.toNumber = .ok n) :
    b.order a = none ↔ a.IsNaN ∨ b.IsNaN := by
  rw [order_eq hb ha, Number.order_eq_none_iff, isNaN_iff ha, isNaN_iff hb, or_comm]

/-- What is not up to another number lies past it, if both are numbers. -/
theorem not_le_iff (ha : a.toNumber = .ok m) (hb : b.toNumber = .ok n) :
    ¬ b ≤ a ↔ a < b ∨ a.IsNaN ∨ b.IsNaN := by
  rw [← order_eq_none_iff ha hb]
  change ¬ (b.order a = some .lt ∨ b.order a = some .eq) ↔ a.order b = some .lt ∨ _
  rw [order_swap ha hb]
  rcases b.order a with _ | _ | _ | _ <;> simp

theorem not_lt_iff (ha : a.toNumber = .ok m) (hb : b.toNumber = .ok n) :
    ¬ b < a ↔ a ≤ b ∨ a.IsNaN ∨ b.IsNaN := by
  rw [← order_eq_none_iff ha hb]
  change ¬ b.order a = some .lt ↔ (a.order b = some .lt ∨ a.order b = some .eq) ∨ _
  rw [order_swap ha hb]
  rcases b.order a with _ | _ | _ | _ <;> simp

variable [Memory]

theorem toNumber_whole (n : Int) : (Scalar.whole n : Quantity).toNumber = .ok (.whole n) := rfl

/-- What is not up to a whole number lies past it, if it is a number. -/
theorem not_le_whole_iff (h : b.toNumber = .ok n) (k : Int) :
    ¬ b ≤ Scalar.whole k ↔ Scalar.whole k < b ∨ b.IsNaN := by
  have hWhole : ¬ (Scalar.whole k : Quantity).IsNaN := by
    rw [isNaN_iff (toNumber_whole k)]
    exact id
  rw [not_le_iff (toNumber_whole k) h]
  simp [hWhole]

theorem outcome_mul (ha : a.toNumber = .ok m) (hb : b.toNumber = .ok n) :
    (a * b).outcome = (m.mul n).map .number := by
  obtain ⟨v, hv, hm⟩ := toNumber_eq_ok_iff.mp ha
  obtain ⟨w, hw, hn⟩ := toNumber_eq_ok_iff.mp hb
  have hProduct : v.mul w = Value.onNumbers Number.mul v w := by
    cases v <;> cases w <;> first | rfl | (cases hm; done) | cases hn
  change (do Value.mul (← a.outcome) (← b.outcome)) = _
  rw [hv, hw, ok_bind, ok_bind, hProduct, Value.onNumbers, hm, ok_bind, hn, ok_bind]
  cases m.mul n <;> rfl

/-- A product of numbers that can be computed is a number. -/
theorem succeeds_toNumber_mul (ha : Succeeds a.toNumber) (hb : Succeeds b.toNumber)
    (h : Succeeds (a * b).outcome) : Succeeds (a * b).toNumber := by
  obtain ⟨m, ha⟩ := ha
  obtain ⟨n, hb⟩ := hb
  rw [outcome_mul ha hb] at h
  obtain ⟨k, hk⟩ : Succeeds (m.mul n) := by
    cases hProduct : m.mul n <;> simp_all [Except.map]
  refine ⟨k, toNumber_eq_ok_iff.mpr ⟨.number k, ?_, rfl⟩⟩
  rw [outcome_mul ha hb, hk]
  rfl

/-- A product that is a number has numbers as factors. -/
theorem of_toNumber_mul (h : (a * b).toNumber = .ok n) :
    ∃ k m, a.toNumber = .ok k ∧ b.toNumber = .ok m ∧ k.mul m = .ok n := by
  obtain ⟨r, hr, hn⟩ := toNumber_eq_ok_iff.mp h
  change (do Value.mul (← a.outcome) (← b.outcome)) = .ok r at hr
  obtain ⟨v, hv, hr⟩ := bind_eq_ok_iff.mp hr
  obtain ⟨w, hw, hr⟩ := bind_eq_ok_iff.mp hr
  -- What a text or a list is repeated to is no number.
  have hProduct : Value.onNumbers Number.mul v w = .ok r := by
    cases v <;> cases w <;> first
      | exact hr
      | (obtain ⟨_, _, hr⟩ := bind_eq_ok_iff.mp hr
         obtain ⟨_, _, hr⟩ := bind_eq_ok_iff.mp hr
         cases hr
         cases hn)
  obtain ⟨k, hk, hProduct⟩ := bind_eq_ok_iff.mp hProduct
  obtain ⟨m, hm, hProduct⟩ := bind_eq_ok_iff.mp hProduct
  obtain ⟨p, hp, ⟨⟩⟩ := bind_eq_ok_iff.mp hProduct
  cases hn
  exact ⟨k, m, toNumber_eq_ok_iff.mpr ⟨v, hv, hk⟩, toNumber_eq_ok_iff.mpr ⟨w, hw, hm⟩, hp⟩

/-- A product of numbers has no result where a factor has none. -/
theorem isNaN_mul (hNaN : a.IsNaN ∨ b.IsNaN) (h : Succeeds (a * b).toNumber) : (a * b).IsNaN := by
  obtain ⟨r, hr⟩ := h
  obtain ⟨k, m, hk, hm, hProduct⟩ := of_toNumber_mul hr
  rw [isNaN_iff hk, isNaN_iff hm] at hNaN
  exact ⟨r, hr, Number.isNaN_mul hNaN hProduct⟩

theorem not_isNaN_mul_two (ha : ¬ a.IsNaN) : ¬ (a * Scalar.whole 2).IsNaN := by
  rintro ⟨n, hn, hNaN⟩
  obtain ⟨k, m, hk, ⟨⟩, hProduct⟩ := of_toNumber_mul hn
  rw [isNaN_iff hk] at ha
  exact Number.not_isNaN_mul_two ha hProduct hNaN

/-- Positive numbers have a product. -/
theorem not_isNaN_mul_of_pos (ha : Scalar.whole 0 < a) (hb : Scalar.whole 0 < b) :
    ¬ (a * b).IsNaN := by
  rintro ⟨n, hn, hNaN⟩
  obtain ⟨k, m, hk, hm, hProduct⟩ := of_toNumber_mul hn
  change Quantity.order _ a = some .lt at ha
  change Quantity.order _ b = some .lt at hb
  rw [order_eq (toNumber_whole 0) hk] at ha
  rw [order_eq (toNumber_whole 0) hm] at hb
  exact Number.not_isNaN_mul_of_pos ha hb hProduct hNaN

/-- A product of numbers that can be held as fractions can be computed. -/
theorem succeeds_mul (ha : Succeeds a.toNumber) (hb : Succeeds b.toNumber) (hLeft : a.InRange)
    (hRight : b.InRange) : Succeeds (a * b).toNumber := by
  apply succeeds_toNumber_mul ha hb
  obtain ⟨m, ha⟩ := ha
  obtain ⟨n, hb⟩ := hb
  obtain ⟨x, hx⟩ := hLeft m ha
  obtain ⟨y, hy⟩ := hRight n hb
  rw [outcome_mul ha hb]
  cases m <;> cases n <;> simp [Number.mul, Number.combine, hx, hy, Except.map]

end Quantity

namespace Options

variable [Memory] {o : Options Quantity}

/-- What a figure needs of its options. -/
inductive Requirement where
  | cycleWidth
  | hscale
  | gapShrink
  | waveHeight
  | transition
  | colours

namespace Requirement

/-- Whether options have what a figure needs of them. -/
def Holds (o : Options Quantity) : Requirement → Prop
  | cycleWidth => Scalar.whole 0 < o.cycleWidth
  | hscale => Scalar.whole 0 < o.hscale
  | gapShrink => Scalar.whole 0 < o.gapShrink ∧ o.gapShrink ≤ Scalar.whole 1
  | waveHeight => Scalar.whole 0 < o.waveHeight
  | transition => o.transitionOffset * Scalar.whole 2 ≤ o.cycleWidth * o.hscale
  | colours => 8 ≤ o.backgrounds.length

/-- The sizes that are only refused for lying on the wrong side of another one, and so not for being no
number. That by which gaps shrink has to lie on the right side. -/
def compared (o : Options Quantity) : Requirement → List Quantity
  | cycleWidth => [o.cycleWidth]
  | hscale => [o.hscale]
  | gapShrink => []
  | waveHeight => [o.waveHeight]
  | transition => [o.transitionOffset, o.cycleWidth, o.hscale]
  | colours => []

/-- Whether the sizes that a requirement compares are numbers. -/
def Comparable (o : Options Quantity) (r : Requirement) : Prop := ∀ a ∈ r.compared o, ¬ a.IsNaN

end Requirement

/-- Options whose checks can be computed. -/
structure Measurable (o : Options Quantity) : Prop where
  cycleWidth : Succeeds o.cycleWidth.toNumber
  hscale : Succeeds o.hscale.toNumber
  gapShrink : Succeeds o.gapShrink.toNumber
  waveHeight : Succeeds o.waveHeight.toNumber
  twice : Succeeds (o.transitionOffset * Scalar.whole 2).toNumber
  scaled : Succeeds (o.cycleWidth * o.hscale).toNumber

theorem number_eq_ok {a : Quantity} (h : Succeeds a.toNumber) : Scalar.number a = .ok a := by
  obtain ⟨n, hn⟩ := h
  change (do let _ ← a.toNumber; return a) = _
  rw [hn]
  rfl

theorem checked_eq_ok {a : Quantity} (h : Succeeds a.toNumber) : Scalar.checked a = .ok a := by
  obtain ⟨n, hn⟩ := h
  obtain ⟨v, hv, _⟩ := Quantity.toNumber_eq_ok_iff.mp hn
  change (do let _ ← a.outcome; return a) = _
  rw [hv]
  rfl

/-- Options whose checks can be computed are refused for the first size that a figure cannot have. -/
theorem check_eq (h : o.Measurable) : o.check =
    if o.cycleWidth ≤ Scalar.whole 0 ∨ o.hscale ≤ Scalar.whole 0 then
      .error (defect (.cycleNotPositive (Scalar.text o.cycleWidth) (Scalar.text o.hscale)))
    else if ¬ (Scalar.whole 0 < o.gapShrink ∧ o.gapShrink ≤ Scalar.whole 1) then
      .error (defect (.shrinkOutOfRange (Scalar.text o.gapShrink)))
    else if o.waveHeight ≤ Scalar.whole 0 then .error (defect .waveHeightNotPositive)
    else if o.cycleWidth * o.hscale < o.transitionOffset * Scalar.whole 2 then
      .error (defect .transitionTooWide)
    else if o.backgrounds.length < 8 then .error (defect .tooFewBackgrounds) else .ok () := by
  simp only [check, number, scaledCycleWidth, number_eq_ok h.cycleWidth, number_eq_ok h.hscale,
    number_eq_ok h.gapShrink, number_eq_ok h.waveHeight, checked_eq_ok h.twice, number_eq_ok h.twice,
    checked_eq_ok h.scaled, liftM_ok, ok_bind, throw_eq_error, error_bind]
  by_cases hWidth : o.cycleWidth ≤ Scalar.whole 0
  · rw [if_pos hWidth, if_pos (.inl hWidth)]
  · simp only [hWidth, if_false, false_or, Bool.not_eq_true', Bool.and_eq_false_iff,
      decide_eq_false_iff_not, not_and_or]
    rfl

/-- Options pass their checks if they have what a figure needs of them, as far as it can be compared. -/
theorem check_eq_ok_iff_holds (h : o.Measurable) :
    o.check = .ok () ↔ ∀ r : Requirement, r.Comparable o → r.Holds o := by
  obtain ⟨width, hWidth⟩ := h.cycleWidth
  obtain ⟨scale, hScale⟩ := h.hscale
  obtain ⟨height, hHeight⟩ := h.waveHeight
  obtain ⟨twice, hTwice⟩ := h.twice
  obtain ⟨scaled, hScaled⟩ := h.scaled
  rw [check_eq h]
  simp only [ite_error_eq_ok_iff, not_or, not_not, Quantity.not_le_whole_iff hWidth,
    Quantity.not_le_whole_iff hScale, Quantity.not_le_whole_iff hHeight,
    Quantity.not_lt_iff hTwice hScaled, Nat.not_lt, and_true]
  constructor
  · rintro ⟨⟨hPositive, hLarger⟩, hShrink, hHigh, hTransition, hColours⟩ r hComparable
    simp only [Requirement.Comparable] at hComparable
    cases r with
    | cycleWidth => exact hPositive.resolve_right (hComparable _ (by simp [Requirement.compared]))
    | hscale => exact hLarger.resolve_right (hComparable _ (by simp [Requirement.compared]))
    | gapShrink => exact hShrink
    | waveHeight => exact hHigh.resolve_right (hComparable _ (by simp [Requirement.compared]))
    | transition =>
        simp only [Requirement.compared, List.forall_mem_cons] at hComparable
        obtain ⟨hOffset, hWidthNumber, hScaleNumber, _⟩ := hComparable
        exact hTransition.resolve_right (not_or.mpr ⟨Quantity.not_isNaN_mul_two hOffset,
          Quantity.not_isNaN_mul_of_pos (hPositive.resolve_right hWidthNumber)
            (hLarger.resolve_right hScaleNumber)⟩)
    | colours => exact hColours
  · intro hAll
    have hSingle {r : Requirement} {a : Quantity} (hOnly : r.compared o = [a]) :
        r.Holds o ∨ a.IsNaN := by
      refine or_iff_not_imp_right.mpr fun hNumber => hAll r ?_
      rwa [Requirement.Comparable, hOnly, List.forall_mem_singleton]
    refine ⟨⟨hSingle (r := .cycleWidth) rfl, hSingle (r := .hscale) rfl⟩, hAll .gapShrink (by nofun),
      hSingle (r := .waveHeight) rfl, or_iff_not_imp_right.mpr fun hNumbers => hAll .transition ?_,
      hAll .colours (by nofun)⟩
    obtain ⟨hLeft, hRight⟩ := not_or.mp hNumbers
    simp only [Requirement.Comparable, Requirement.compared, List.forall_mem_cons]
    exact ⟨fun hNaN => hLeft (Quantity.isNaN_mul (.inl hNaN) ⟨twice, hTwice⟩),
      fun hNaN => hRight (Quantity.isNaN_mul (.inl hNaN) ⟨scaled, hScaled⟩),
      fun hNaN => hRight (Quantity.isNaN_mul (.inr hNaN) ⟨scaled, hScaled⟩), nofun⟩

/-- Options that are refused have a defect. -/
theorem malformed_of_check (h : o.Measurable) {e : Error} (hError : o.check = .error e) :
    ∃ d, e = defect d := by
  rw [check_eq h] at hError
  split_ifs at hError <;> cases hError <;> exact ⟨_, rfl⟩

theorem succeeds_toNumber {a b : Quantity} (h : Scalar.number a = .ok b) : Succeeds a.toNumber := by
  obtain ⟨n, hn, _⟩ := bind_eq_ok_iff.mp h
  exact ⟨n, hn⟩

/-- Options can only pass their checks if these can be computed. -/
theorem measurable_of_check (h : o.check = .ok ()) : o.Measurable := by
  unfold check at h
  simp only [throw_eq_error, error_bind, ite_error_eq_ok_iff, bind_eq_ok_iff, liftM_eq_ok_iff] at h
  obtain ⟨_, hWidth, _, _, hScale, _, _, hShrink, _, _, hHeight, _, _, hTwice, _, hScaled, _, hNumber,
    _⟩ := h
  obtain rfl := CheckedScalar.eq_of_checked hTwice
  obtain ⟨_, hProduct, _⟩ := bind_eq_ok_iff.mp hScaled
  exact {
    cycleWidth := succeeds_toNumber hWidth
    hscale := succeeds_toNumber hScale
    gapShrink := succeeds_toNumber hShrink
    waveHeight := succeeds_toNumber hHeight
    twice := succeeds_toNumber hNumber
    scaled := Quantity.succeeds_toNumber_mul (succeeds_toNumber hWidth) (succeeds_toNumber hScale)
      ⟨_, hProduct⟩ }

end Options
end TimingDiagram
