import Mathlib.Algebra.Ring.Int.Parity
import Mathlib.Tactic.NormNum
import TimingDiagram.Proofs.Number.Exact
import TimingDiagram.Proofs.Outcome
import TimingDiagram.Wave.PulseTrain

/-! Pulse trains in exact arithmetic. A clock turns at the borders between its half periods, and its
train holds the level of the half period that it is in, but for the tolerance at its ends. -/
namespace TimingDiagram

namespace Level

/-- The level that a clock opens its periods with. -/
def opening (rising : Bool) : Level := if rising then .high else .low

/-- The level of the second half of the periods of a clock. -/
def closing (rising : Bool) : Level := if rising then .low else .high

end Level

namespace Pulse

theorem levelIn_eq (rising : Bool) (k : Int) :
    levelIn rising k = if Even k then Level.opening rising else Level.closing rising := by
  rw [levelIn, Level.opening, Level.closing]
  by_cases hEven : Even k
  · rw [if_pos hEven, Int.even_iff.mp hEven]
    cases rising <;> rfl
  · rw [if_neg hEven, Int.not_even_iff.mp hEven]
    cases rising <;> rfl

theorem levelIn_cases (rising : Bool) (k : Int) :
    levelIn rising k = Level.opening rising ∨ levelIn rising k = Level.closing rising := by
  rw [levelIn_eq]
  exact ite_eq_or_eq _ _ _

/-- A clock turns at every border between half periods. -/
theorem levelIn_ne_succ (rising : Bool) (k : Int) : levelIn rising k ≠ levelIn rising (k + 1) := by
  rw [levelIn_eq, levelIn_eq]
  simp only [Int.even_add_one, Level.opening, Level.closing]
  by_cases hEven : Even k <;> cases rising <;> simp [hEven]

section Turns

variable {K : Type} [Field K]

/-- The turn at the start of the `k`-th half period. -/
def turnAt (half phase : K) (rising : Bool) (k : Int) : Pulse K :=
  ⟨k * half - phase, levelIn rising k⟩

/-- So many turns from the `k`-th half period on. -/
def turnsAt (half phase : K) (rising : Bool) : Nat → Int → List (Pulse K)
  | 0, _ => []
  | count + 1, k => turnAt half phase rising k :: turnsAt half phase rising count (k + 1)

variable {half phase : K} {rising : Bool} {count : Nat} {k : Int} {p : Pulse K}

theorem mem_turnsAt_iff : p ∈ turnsAt half phase rising count k ↔
    ∃ j, k ≤ j ∧ j < k + count ∧ p = turnAt half phase rising j := by
  induction count generalizing k with
  | zero =>
      simp only [turnsAt, List.not_mem_nil, false_iff, not_exists]
      omega
  | succ count ih =>
      rw [turnsAt, List.mem_cons, ih]
      constructor
      · rintro (rfl | ⟨j, hFrom, hTo, rfl⟩)
        · exact ⟨k, le_rfl, by omega, rfl⟩
        · exact ⟨j, by omega, by omega, rfl⟩
      · rintro ⟨j, hFrom, hTo, rfl⟩
        rcases hFrom.eq_or_lt with rfl | hLater
        · exact .inl rfl
        · exact .inr ⟨j, by omega, by omega, rfl⟩

/-- Turns in a row come one after another. -/
theorem exists_split_turnsAt (half phase : K) (rising : Bool) {j : Int} (hFrom : k ≤ j) (hTo : j < k + count) :
    ∃ before after, turnsAt half phase rising count k =
        before ++ turnAt half phase rising j :: after ∧
      ∀ q ∈ after, ∃ i, j < i ∧ q = turnAt half phase rising i := by
  induction count generalizing k with
  | zero => omega
  | succ count ih =>
      rcases hFrom.eq_or_lt with rfl | hLater
      · refine ⟨[], _, rfl, fun q hq => ?_⟩
        obtain ⟨i, hi, _, rfl⟩ := mem_turnsAt_iff.mp hq
        exact ⟨i, hi, rfl⟩
      · obtain ⟨before, after, hSplit, hAfter⟩ := ih (Int.add_one_le_iff.mpr hLater) (by omega)
        exact ⟨_ :: before, after, congrArg _ hSplit, hAfter⟩

/-- Turns in a row alternate, also with a level of the half period before them. -/
theorem alternate_turnsAt {x : K} : (⟨x, levelIn rising k⟩ ::
    turnsAt half phase rising count (k + 1)).IsChain fun a b => a.level ≠ b.level := by
  induction count generalizing k x with
  | zero => exact .singleton _
  | succ count ih => exact List.isChain_cons_cons.mpr ⟨levelIn_ne_succ rising k, ih⟩

variable [LinearOrder K] [IsStrictOrderedRing K]

theorem offset_turnAt_lt_iff (hHalf : 0 < half) {i j : Int} :
    (turnAt half phase rising i).offset < (turnAt half phase rising j).offset ↔ i < j := by
  rw [turnAt, turnAt, sub_lt_sub_iff_right, mul_lt_mul_iff_left₀ hHalf, Int.cast_lt]

theorem increasing_turnsAt (hHalf : 0 < half) :
    ((turnsAt half phase rising count k).map offset).Pairwise (· < ·) := by
  induction count generalizing k with
  | zero => exact .nil
  | succ count ih =>
      refine List.pairwise_cons.mpr ⟨fun t ht => ?_, ih⟩
      obtain ⟨p, hp, rfl⟩ := List.mem_map.mp ht
      obtain ⟨j, hLater, _, rfl⟩ := mem_turnsAt_iff.mp hp
      exact (offset_turnAt_lt_iff hHalf).mpr hLater

variable [FloorRing K]

theorem offset_turnAt_lt_iff_ceil (hHalf : 0 < half) {limit : K} :
    (turnAt half phase rising k).offset < limit ↔ k < ⌈(limit + phase) / half⌉ := by
  rw [turnAt, Int.lt_ceil, lt_div_iff₀ hHalf, sub_lt_iff_lt_add]

theorem lt_offset_turnAt_iff_floor (hHalf : 0 < half) {least : K} :
    least * half < (turnAt half phase rising k).offset ↔ ⌊phase / half + least⌋ < k := by
  rw [turnAt, Int.floor_lt, div_add' _ _ _ hHalf.ne', div_lt_iff₀ hHalf, lt_sub_iff_add_lt']

theorem offset_turnAt_le_iff_floor (hHalf : 0 < half) {u : K} :
    (turnAt half phase rising k).offset ≤ u ↔ k ≤ ⌊(u + phase) / half⌋ := by
  rw [turnAt, Int.le_floor, le_div_iff₀ hHalf, sub_le_iff_le_add]

/-- The turns that come later than a part of a half period, and before a limit. -/
def turnsBetween (half phase : K) (rising : Bool) (least limit : K) : List (Pulse K) :=
  let first := ⌊phase / half + least⌋ + 1
  turnsAt half phase rising (⌈(limit + phase) / half⌉ - first).toNat first

theorem mem_turnsBetween_iff (hHalf : 0 < half) {least limit : K} :
    p ∈ turnsBetween half phase rising least limit ↔
      least * half < p.offset ∧ p.offset < limit ∧ ∃ k, p = turnAt half phase rising k := by
  rw [turnsBetween, mem_turnsAt_iff]
  constructor
  · rintro ⟨k, hFrom, hTo, rfl⟩
    exact ⟨(lt_offset_turnAt_iff_floor hHalf).mpr (by omega),
      (offset_turnAt_lt_iff_ceil hHalf).mpr (by omega), k, rfl⟩
  · rintro ⟨hFrom, hTo, k, rfl⟩
    rw [lt_offset_turnAt_iff_floor hHalf] at hFrom
    rw [offset_turnAt_lt_iff_ceil hHalf] at hTo
    exact ⟨k, by omega, by omega, rfl⟩

theorem mem_offsets_turnsBetween_iff (hHalf : 0 < half) {least limit t : K} :
    t ∈ (turnsBetween half phase rising least limit).map offset ↔
      (∃ k : Int, t = k * half - phase) ∧ least * half < t ∧ t < limit := by
  rw [List.mem_map]
  constructor
  · rintro ⟨p, hp, rfl⟩
    obtain ⟨hFrom, hTo, k, rfl⟩ := (mem_turnsBetween_iff hHalf).mp hp
    exact ⟨⟨k, rfl⟩, hFrom, hTo⟩
  · rintro ⟨⟨k, rfl⟩, hFrom, hTo⟩
    exact ⟨turnAt half phase rising k, (mem_turnsBetween_iff hHalf).mpr ⟨hFrom, hTo, k, rfl⟩, rfl⟩

/-- The last level at or before a place is that of the half period of the place. -/
theorem exists_last_le (phase : K) (rising : Bool) (hHalf : 0 < half) {least limit u : K} (hLeast : 0 ≤ least)
    (hFrom : least * half ≤ u) (hTo : u < limit) :
    ∃ before p after, ⟨0, levelIn rising ⌊phase / half + least⌋⟩ ::
        turnsBetween half phase rising least limit = before ++ p :: after ∧
      p.offset ≤ u ∧ (∀ q ∈ after, u < q.offset) ∧
      p.level = levelIn rising ⌊(u + phase) / half⌋ := by
  rw [turnsBetween]
  set first := ⌊phase / half + least⌋
  set here := ⌊(u + phase) / half⌋
  set last := ⌈(limit + phase) / half⌉
  have hLater {j : Int} (hj : here < j) : u < (turnAt half phase rising j).offset := by
    rw [← not_le, offset_turnAt_le_iff_floor hHalf, not_le]
    exact hj
  have hFirst : first ≤ here := by
    refine Int.floor_le_floor ?_
    rw [div_add' _ _ _ hHalf.ne', add_comm]
    exact div_le_div_of_nonneg_right (add_le_add_left hFrom _) hHalf.le
  rcases hFirst.eq_or_lt with hSame | hBefore
  · refine ⟨[], _, _, rfl, (mul_nonneg hLeast hHalf.le).trans hFrom, fun q hq => ?_, by rw [hSame]⟩
    obtain ⟨j, hj, _, rfl⟩ := mem_turnsAt_iff.mp hq
    exact hLater (by omega)
  · have hOffset : (turnAt half phase rising here).offset ≤ u :=
      (offset_turnAt_le_iff_floor hHalf).mpr le_rfl
    have hLimit : here < last := (offset_turnAt_lt_iff_ceil hHalf).mp (hOffset.trans_lt hTo)
    have hRoom : here < first + 1 + (last - (first + 1)).toNat := by omega
    obtain ⟨before, after, hSplit, hAfter⟩ :=
      exists_split_turnsAt half phase rising (Int.add_one_le_iff.mpr hBefore) hRoom
    refine ⟨_ :: before, _, after, congrArg _ hSplit, hOffset, fun q hq => ?_, rfl⟩
    obtain ⟨j, hj, rfl⟩ := hAfter q hq
    exact hLater hj

variable [Scalar K] [ExactScalar K]

theorem tolerance_eq : (tolerance : K) = 1 / 1000000000 := by
  rw [tolerance, ExactScalar.fraction_eq]
  norm_num

theorem tolerance_pos : (0 : K) < tolerance := by
  rw [tolerance_eq]
  positivity

/-- The level at a turn is that of the half period that starts there. -/
theorem halvesBefore_turnAt (hHalf : 0 < half) :
    halvesBefore half ((turnAt half phase rising k).offset + phase) = .ok k := by
  have hBorder : ((turnAt half phase rising k).offset + phase) / half = k := by
    rw [turnAt, sub_add_cancel, mul_div_cancel_right₀ _ hHalf.ne']
  have hBelow : (tolerance : K) < 1 := by
    rw [tolerance_eq]
    norm_num
  have hFloor : ⌊(tolerance : K)⌋ = 0 := Int.floor_eq_zero_iff.mpr ⟨tolerance_pos.le, hBelow⟩
  rw [halvesBefore, hBorder, ExactScalar.floor_eq, Int.floor_intCast_add, hFloor, add_zero]

/-- Where there is room for all of them, the turns are those before the limit. -/
theorem turnsFrom_eq (hHalf : 0 < half) {limit : K} {fuel : Nat}
    (hFuel : ⌈(limit + phase) / half⌉ ≤ k + fuel) :
    turnsFrom half phase limit rising fuel k =
      .ok (turnsAt half phase rising (⌈(limit + phase) / half⌉ - k).toNat k) := by
  induction fuel generalizing k with
  | zero =>
      have hNone : (⌈(limit + phase) / half⌉ - k).toNat = 0 := by omega
      rw [hNone]
      rfl
  | succ fuel ih =>
      have hTurn : Scalar.whole k * half - phase = (turnAt half phase rising k).offset := by
        rw [Scalar.whole_eq, turnAt]
      rw [turnsFrom, hTurn, ExactScalar.checked_eq, ok_bind]
      split_ifs with hBefore
      · rw [offset_turnAt_lt_iff_ceil hHalf] at hBefore
        have hSome : (⌈(limit + phase) / half⌉ - k).toNat =
            (⌈(limit + phase) / half⌉ - (k + 1)).toNat + 1 := by omega
        rw [halvesBefore_turnAt hHalf, ok_bind, ih (by omega), hSome]
        rfl
      · rw [offset_turnAt_lt_iff_ceil hHalf] at hBefore
        have hNone : (⌈(limit + phase) / half⌉ - k).toNat = 0 := by omega
        rw [hNone]
        rfl

/-- There is room for all turns: a train has no more of them than half periods fit into it, and one. -/
theorem ceil_le_turnBound (hHalf : 0 < half) (cycles phase : K) :
    ⌈(cycles - tolerance + phase) / half⌉ ≤
      ⌊phase / half + tolerance⌋ + 1 + turnBound cycles half phase := by
  have hSize : (0 : K) ≤ (if phase < Scalar.zero then Scalar.zero - phase else phase) *
      Scalar.fraction 1 (Nat.pow 2 50) := by
    refine mul_nonneg ?_ (by rw [ExactScalar.fraction_eq]; positivity)
    rw [Scalar.zero_eq]
    split_ifs with hNegative
    · linarith
    · exact not_lt.mp hNegative
  have hRoom : cycles / half ≤ turnBound cycles half phase := by
    rw [turnBound, ExactScalar.floor_eq]
    set most := (cycles + (if phase < Scalar.zero then Scalar.zero - phase else phase) *
      Scalar.fraction 1 (Nat.pow 2 50)) / half
    have hLess : cycles / half ≤ most := div_le_div_of_nonneg_right (by linarith) hHalf.le
    have hWhole : ((⌊most⌋ : Int) : K) ≤ (⌊most⌋.toNat : Nat) := by exact_mod_cast Int.self_le_toNat _
    have hFloor := Int.lt_floor_add_one most
    push_cast
    linarith
  have hFirst := Int.lt_floor_add_one (phase / half + (tolerance : K))
  have hLimit : (cycles - tolerance + phase) / half ≤ cycles / half + phase / half := by
    rw [← add_div]
    exact div_le_div_of_nonneg_right (by linarith [tolerance_pos (K := K)]) hHalf.le
  rw [Int.ceil_le]
  push_cast
  linarith [tolerance_pos (K := K)]

/-- A train is the level at its start and all turns until shortly before its end. -/
theorem train_eq {period : K} (hPeriod : 0 < period) (cycles phase : K) (rising : Bool) :
    let half := period / 2
    train cycles period phase rising = .ok (⟨0, levelIn rising ⌊phase / half + tolerance⌋⟩ ::
      turnsBetween half phase rising tolerance (cycles - tolerance)) := by
  intro half
  have hHalf : 0 < half := half_pos hPeriod
  have hHalves : period / Scalar.fraction 2 1 = half := by
    rw [ExactScalar.fraction_eq]
    norm_num
    rfl
  rw [train, hHalves, halvesBefore, ExactScalar.floor_eq, ok_bind, ExactScalar.checked_eq, ok_bind,
    turnsFrom_eq hHalf (ceil_le_turnBound hHalf cycles phase), Scalar.zero_eq]
  rfl

/-- The level of an ideal clock at a place: the opening level in the even half periods. -/
def squareWave (half phase : K) (rising : Bool) (u : K) : Level :=
  if Even ⌊(u + phase) / half⌋ then .opening rising else .closing rising

/-- A pulse train follows the ideal clock. Its loop ends on its own, so that room for more turns adds
none. It opens at its start and turns at all borders between half periods, but not within the tolerance
of its ends; the levels alternate, and from one border to the next the ideal one holds. -/
theorem train_follows_squareWave (cycles phase : K) {period : Nat} (hPeriod : 1 ≤ period)
    (rising : Bool) :
    let half : K := period / 2
    let e : K := 1 / 1000000000
    ∃ first turns, train cycles (Scalar.whole period) phase rising = .ok (first :: turns) ∧
      (∀ fuel, turnBound cycles half phase ≤ fuel →
        turnsFrom half phase (cycles - e) rising fuel (⌊phase / half + e⌋ + 1) = .ok turns) ∧
      first.offset = 0 ∧
      (∀ t, t ∈ turns.map offset ↔
        (∃ k : Int, t = k * half - phase) ∧ e * half < t ∧ t < cycles - e) ∧
      ((first :: turns).map offset).Pairwise (· < ·) ∧
      (first :: turns).IsChain (fun a b => a.level ≠ b.level) ∧
      (∀ p ∈ first :: turns, p.level = .opening rising ∨ p.level = .closing rising) ∧
      ∀ u, e * half ≤ u → u < cycles - e →
        ∃ before p after, first :: turns = before ++ p :: after ∧ p.offset ≤ u ∧
          (∀ q ∈ after, u < q.offset) ∧ p.level = squareWave half phase rising u := by
  intro half e
  have hWhole : (0 : K) < period := Nat.cast_pos.mpr hPeriod
  have hHalf : 0 < half := half_pos hWhole
  have hTolerance : (tolerance : K) = e := tolerance_eq
  have hPositive : 0 < e := hTolerance ▸ tolerance_pos
  have hTrain := train_eq hWhole cycles phase rising
  have hRoom := ceil_le_turnBound hHalf cycles phase
  rw [hTolerance] at hTrain hRoom
  refine ⟨_, turnsBetween half phase rising e (cycles - e),
    by rw [Scalar.whole_eq, Int.cast_natCast, hTrain], fun fuel hFuel => ?_, rfl,
    fun t => mem_offsets_turnsBetween_iff hHalf, ?_, alternate_turnsAt, ?_, fun u hFrom hTo => ?_⟩
  · exact turnsFrom_eq hHalf (by omega)
  · refine List.pairwise_cons.mpr ⟨fun t ht => ?_, increasing_turnsAt hHalf⟩
    exact (mul_pos hPositive hHalf).trans ((mem_offsets_turnsBetween_iff hHalf).mp ht).2.1
  · refine List.forall_mem_cons.mpr ⟨levelIn_cases rising _, fun p hp => ?_⟩
    obtain ⟨_, _, k, rfl⟩ := (mem_turnsBetween_iff hHalf).mp hp
    exact levelIn_cases rising k
  · obtain ⟨before, p, after, hSplit, hOffset, hAfter, hHolds⟩ :=
      exists_last_le phase rising hHalf hPositive.le hFrom hTo
    exact ⟨before, p, after, hSplit, hOffset, hAfter, hHolds.trans (levelIn_eq _ _)⟩

end Turns

/-- A clock that is late by seven quarters of its half period turns at three quarters for the first
time, and then it is low. -/
theorem train_follows_squareWave_late :
    1 ≤ 2 ∧ ∃ first turns,
      train (3 : ℝ) (Scalar.whole (2 : Nat)) (-(7 / 4)) true = .ok (first :: turns) ∧
        3 / 4 ∈ turns.map offset ∧ (∀ t ∈ turns.map offset, 3 / 4 ≤ t) ∧
        ∃ p ∈ first :: turns, p.offset ≤ 1 ∧ p.level = .low := by
  obtain ⟨first, turns, hTrain, _, _, hTurns, _, _, _, hHolds⟩ :=
    train_follows_squareWave (3 : ℝ) (-(7 / 4)) (by decide : 1 ≤ 2) true
  refine ⟨by decide, first, turns, hTrain, ?_, fun t ht => ?_, ?_⟩
  · exact (hTurns _).mpr ⟨⟨-1, by norm_num⟩, by norm_num, by norm_num⟩
  · obtain ⟨⟨k, rfl⟩, hLater, _⟩ := (hTurns t).mp ht
    have hFirst : (-2 : ℝ) < k := by
      norm_num at hLater
      linarith
    have hWhole : (-1 : ℝ) ≤ k := by exact_mod_cast hFirst
    norm_num
    linarith
  · obtain ⟨before, p, after, hSplit, hOffset, _, hLevel⟩ := hHolds 1 (by norm_num) (by norm_num)
    have hHalf : ⌊((1 : ℝ) + -(7 / 4)) / ((2 : Nat) / 2)⌋ = -1 := by
      rw [Int.floor_eq_iff]
      norm_num
    refine ⟨p, hSplit ▸ by simp, hOffset, hLevel.trans ?_⟩
    rw [squareWave, hHalf]
    rfl

end Pulse
end TimingDiagram
