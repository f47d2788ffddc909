import TimingDiagram.Proofs.Value.Doubles
import TimingDiagram.Wave.PulseTrain

/-! Pulse trains in doubles. A clock with a period of one cycle has all its turns when neither its
phase nor the number of its cycles is out of the ordinary. -/
namespace TimingDiagram

open Binary

namespace Pulse

open Quantity

/-- Half of a period of one cycle. -/
def halfCycle : Float := Number.nearest 1 / ofRatio (decide ((2 : Int) < 0)) (Int.natAbs 2) 1

variable {x phase : Float} {j : Nat} {k : Int}

theorem halfCycle_eq [Memory] : known (.whole 1) / Scalar.fraction 2 1 = known (.real halfCycle) :=
  known_div (Number.div_real_right (toFloat_whole (k := 0) (by decide) (by decide)) (by decide))

theorem within_halfCycle : Within 0 halfCycle :=
  within_iff.mpr ⟨⟨false, 2 ^ 52, -53⟩, rfl, by norm_num [Dyadic.magnitude]⟩

theorem unpack_halfCycle :
    halfCycle.toModel.unpack = .finite .positive (2 ^ 52) (-53) (by decide) := rfl

theorem within_div_halfCycle (hx : Within j x) (hj : j + 2 ≤ 900) : Within (j + 2) (x / halfCycle) :=
  within_div (j := 1) hx unpack_halfCycle (by norm_num) hj

theorem within_tolerance :
    Within 0 (ofRatio (decide ((1 : Int) < 0)) (Int.natAbs 1) 1000000000) :=
  within_iff.mpr ⟨⟨false, 4835703278458517, -82⟩, rfl, by norm_num [Dyadic.magnitude]⟩

/-- The share of a phase that rounding can put on one place. -/
theorem within_share :
    Within 0 (ofRatio (decide ((1 : Int) < 0)) (Int.natAbs 1) (Nat.pow 2 50)) :=
  within_iff.mpr ⟨⟨false, 2 ^ 52, -102⟩, rfl, by norm_num [Dyadic.magnitude]⟩

theorem within_zero : Within 0 (ofRatio (decide ((0 : Int) < 0)) (Int.natAbs 0) 1) :=
  within_iff.mpr ⟨⟨false, 0, -1074⟩, rfl, by simp [Dyadic.magnitude]⟩

variable [Memory]

theorem exists_halvesBefore (hx : Within j x) (hj : j + 4 ≤ 900) :
    ∃ i, halvesBefore (known (.real halfCycle)) (known (.real x)) = .ok i ∧
      i.natAbs ≤ 2 ^ (j + 4) := by
  have hSum : known (.real x) / known (.real halfCycle) + tolerance =
      known (.real (x / halfCycle + ofRatio (decide ((1 : Int) < 0)) (Int.natAbs 1) 1000000000)) := by
    rw [known_div (Number.div_real_left rfl (by decide))]
    exact known_add rfl
  rw [halvesBefore, hSum]
  exact (within_add (within_div_halfCycle hx (by omega))
    (within_tolerance.mono (Nat.zero_le _)) hj).floor

/-- Every turn of the clock comes at a double. -/
theorem exists_turnsFrom (hPhase : Within 80 phase) (limit : Quantity) (rising : Bool) (fuel : Nat)
    (hFuel : k.natAbs + fuel ≤ 2 ^ 80) :
    ∃ turns, turnsFrom (known (.real halfCycle)) (known (.real phase)) limit rising fuel k =
      .ok turns ∧ ∀ pulse ∈ turns, IsDouble pulse.offset := by
  induction fuel generalizing k with
  | zero => exact ⟨[], rfl, by simp⟩
  | succ fuel ih =>
      have hk : k.natAbs ≤ 2 ^ 80 := by omega
      have hTurn : Scalar.whole k * known (.real halfCycle) - known (.real phase) =
          known (.real (Number.nearest k * halfCycle - phase)) := by
        rw [show Scalar.whole k * known (.real halfCycle) =
          known (.real (Number.nearest k * halfCycle)) from
            known_mul (Number.combine_real_right _ _ (toFloat_whole hk (by decide)))]
        exact known_sub rfl
      have hWithin : Within 84 (Number.nearest k * halfCycle - phase) :=
        within_sub (within_mul (within_nearest hk (by decide)) within_halfCycle (by decide))
          (hPhase.mono (by decide)) (by decide)
      obtain ⟨i, hi, _⟩ := exists_halvesBefore
        (within_add hWithin (hPhase.mono (by decide)) (by decide)) (by decide)
      obtain ⟨rest, hRest, hDoubles⟩ := ih (k := k + 1) (by omega)
      have hSum : known (.real (Number.nearest k * halfCycle - phase)) + known (.real phase) =
          known (.real (Number.nearest k * halfCycle - phase + phase)) := known_add rfl
      rw [turnsFrom, hTurn, checked_known, ok_bind]
      split_ifs
      · rw [hSum, hi, ok_bind, hRest]
        exact ⟨_, rfl, List.forall_mem_cons.mpr ⟨⟨_, rfl⟩, hDoubles⟩⟩
      · exact ⟨[], rfl, by simp⟩

theorem turnBound_le (hPhase : Within 20 phase) {n : Int} (hn : n.natAbs ≤ 2 ^ 64) :
    turnBound (known (.whole n)) (known (.real halfCycle)) (known (.real phase)) ≤ 2 ^ 70 := by
  obtain ⟨size, hSize, hWithin⟩ : ∃ size, (if known (.real phase) < Scalar.zero then
      Scalar.zero - known (.real phase) else known (.real phase)) = known (.real size) ∧
      Within 22 size := by
    split_ifs
    · exact ⟨_, known_sub rfl, within_sub (within_zero.mono (by decide)) hPhase (by decide)⟩
    · exact ⟨phase, rfl, hPhase.mono (by decide)⟩
  obtain ⟨part, hPart, hPartWithin⟩ : ∃ part, known (.real size) * Scalar.fraction 1 (Nat.pow 2 50) =
      known (.real part) ∧ Within 23 part := by
    exact ⟨_, known_mul rfl, within_mul hWithin within_share (by decide)⟩
  have hTotal : known (.whole n) + known (.real part) = known (.real (Number.nearest n + part)) :=
    known_add (Number.combine_real_right _ _ (toFloat_whole hn (by decide)))
  have hHalves : known (.real (Number.nearest n + part)) / known (.real halfCycle) =
      known (.real ((Number.nearest n + part) / halfCycle)) :=
    known_div (Number.div_real_left rfl (by decide))
  obtain ⟨i, hi, hBound⟩ := (within_div_halfCycle (within_add (within_nearest hn (by decide))
    (hPartWithin.mono (by decide)) (by decide)) (by decide)).floor
  have hFloor : Scalar.floor (known (.real ((Number.nearest n + part) / halfCycle))) = .ok i := hi
  simp only [turnBound, hSize, hPart, hTotal, hHalves, hFloor]
  omega

/-- A clock with a period of one cycle has its turns. -/
theorem exists_train (hPhase : Within 20 phase) {n : Int} (hn : n.natAbs ≤ 2 ^ 64) (rising : Bool) :
    ∃ turns, train (Scalar.whole n) (Scalar.whole 1) (known (.real phase)) rising = .ok turns ∧
      ∀ pulse ∈ turns, IsDouble pulse.offset := by
  obtain ⟨first, hFirst, hSize⟩ := exists_halvesBefore hPhase (by decide)
  have hLimit : known (.whole n) - tolerance = known (.real (Number.nearest n -
      ofRatio (decide ((1 : Int) < 0)) (Int.natAbs 1) 1000000000)) :=
    known_sub (Number.combine_real_right _ _ (toFloat_whole hn (by decide)))
  have hFuel := turnBound_le hPhase hn
  obtain ⟨turns, hTurns, hDoubles⟩ := exists_turnsFrom (k := first + 1) (hPhase.mono (by decide))
    (known (.whole n) - tolerance) rising
    (turnBound (known (.whole n)) (known (.real halfCycle)) (known (.real phase))) (by omega)
  refine ⟨⟨Scalar.zero, levelIn rising first⟩ :: turns, ?_, ?_⟩
  · rw [train, show Scalar.whole 1 / Scalar.fraction 2 1 = known (.real halfCycle) from halfCycle_eq]
    rw [show Scalar.whole n = known (.whole n) from rfl]
    rw [hLimit] at hTurns ⊢
    rw [hFirst, ok_bind, checked_known, ok_bind, hTurns]
    rfl
  · exact List.forall_mem_cons.mpr ⟨⟨_, rfl⟩, hDoubles⟩

end Pulse
end TimingDiagram
