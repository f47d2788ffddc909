import TimingDiagram.Proofs.Layout.Canvas
import TimingDiagram.Proofs.Wave.SquareWave

/-! Placed pulse trains in exact arithmetic. The places of a train increase with its offsets, so that a
clock opens at the start of its segment and turns strictly inside of it. -/
namespace TimingDiagram

variable {K : Type} [Field K] [LinearOrder K] [IsStrictOrderedRing K] [FloorRing K] [Scalar K]
  [ExactScalar K]

namespace Pulse

omit [LinearOrder K] [IsStrictOrderedRing K] [FloorRing K] [Scalar K] [ExactScalar K] in
/-- So many turns later the level is that of the half period so many places later. -/
theorem getLast?_turnsAt (half phase x : K) (rising : Bool) (count : Nat) (k : Int) :
    (⟨x, levelIn rising k⟩ :: turnsAt half phase rising count (k + 1)).getLast?.map level =
      some (levelIn rising (k + count)) := by
  induction count generalizing k x with
  | zero => rw [turnsAt, Nat.cast_zero, add_zero, List.getLast?_singleton, Option.map_some]
  | succ count ih =>
      rw [turnsAt, List.getLast?_cons_cons, turnAt, ih, Nat.cast_succ, add_assoc, add_comm 1]

theorem floor_tolerance : ⌊(tolerance : K)⌋ = 0 := by
  rw [tolerance_eq, Int.floor_eq_zero_iff]
  constructor <;> norm_num

/-- A train without a phase opens with the level of its polarity. -/
theorem head?_train {cycles : K} {period : Nat} {rising : Bool} {pulses : List (Pulse K)}
    (hPeriod : 1 ≤ period) (h : train cycles (Scalar.whole period) 0 rising = .ok pulses) :
    pulses.head?.map level = some (Level.opening rising) := by
  have hTrain := train_eq (Nat.cast_pos.mpr hPeriod) cycles 0 rising
  rw [Scalar.whole_eq, Int.cast_natCast] at h
  simp only [h, Except.ok.injEq, zero_div, zero_add, floor_tolerance] at hTrain
  rw [hTrain, List.head?_cons, Option.map_some, levelIn_eq, if_pos Even.zero]

/-- Over whole periods a train without a phase ends with the other level. -/
theorem getLast?_train {period count : Nat} {rising : Bool} {pulses : List (Pulse K)}
    (hPeriod : 1 ≤ period) (hCount : 1 ≤ count)
    (h : train (Scalar.whole (count * period : Int)) (Scalar.whole period) 0 rising = .ok pulses) :
    pulses.getLast?.map level = some (Level.closing rising) := by
  have hWhole : (1 : K) ≤ period := by exact_mod_cast hPeriod
  have hTrain := train_eq (zero_lt_one.trans_le hWhole) (count * period : K) 0 rising
  simp only [Scalar.whole_eq, Int.cast_mul, Int.cast_natCast] at h
  -- The end cuts off the turn that lies there, and no other one.
  have hEnd : ⌈((count * period : K) - tolerance) / (period / 2)⌉ = 2 * count := by
    rw [tolerance_eq, Int.ceil_eq_iff, lt_div_iff₀ (by linarith), div_le_iff₀ (by linarith)]
    push_cast
    constructor <;> linarith
  simp only [h, Except.ok.injEq, zero_div, zero_add (tolerance : K), turnsBetween, add_zero,
    floor_tolerance, hEnd] at hTrain
  rw [hTrain, getLast?_turnsAt, levelIn_eq, if_neg (by rw [Int.not_even_iff]; omega)]

/-- A train has its first level at its start and turns after it, one after another and before its end;
the levels are the upper and the lower one, by turns. -/
theorem exists_turns_of_train (cycles phase : K) {period : Nat} (hPeriod : 1 ≤ period) (rising : Bool) :
    ∃ first turns, train cycles (Scalar.whole period) phase rising = .ok (first :: turns) ∧
      first.offset = 0 ∧ (∀ t ∈ turns, 0 < t.offset ∧ t.offset < cycles) ∧
      (first :: turns).Pairwise (fun a b => a.offset < b.offset) ∧
      (first :: turns).IsChain (fun a b => a.level ≠ b.level) ∧
      ∀ t ∈ first :: turns, t.level = .high ∨ t.level = .low := by
  have hWhole : (0 : K) < period := Nat.cast_pos.mpr hPeriod
  have hHalf : (0 : K) < period / 2 := half_pos hWhole
  have hTolerance : (0 : K) < tolerance := tolerance_pos
  have hTrain := train_eq hWhole cycles phase rising
  have hInside : ∀ t ∈ turnsBetween ((period : K) / 2) phase rising tolerance (cycles - tolerance),
      0 < t.offset ∧ t.offset < cycles := by
    intro t ht
    obtain ⟨hLater, hBefore, _⟩ := (mem_turnsBetween_iff hHalf).mp ht
    exact ⟨(mul_pos hTolerance hHalf).trans hLater, hBefore.trans (sub_lt_self _ hTolerance)⟩
  rw [Scalar.whole_eq, Int.cast_natCast]
  refine ⟨_, _, hTrain, rfl, hInside, ?_, alternate_turnsAt, ?_⟩
  · exact List.pairwise_cons.mpr ⟨fun t ht => (hInside t ht).1,
      List.pairwise_map.mp (increasing_turnsAt hHalf)⟩
  · refine List.forall_mem_cons.mpr ⟨ite_eq_or_eq _ _ _, fun t ht => ?_⟩
    obtain ⟨_, _, k, rfl⟩ := (mem_turnsBetween_iff hHalf).mp ht
    exact ite_eq_or_eq _ _ _

end Pulse

/-- The turns of a placed clock. It opens at the start of its segment with the level of its pulse train
and turns where the train does, strictly inside of the segment and each time later; the levels are the
upper and the lower one, by turns. -/
structure PlacedSegment.Ticks (p : PlacedSegment K) (l : Layout K) (s : Signal K)
    (first : PlacedPulse K) (turns : List (PlacedPulse K)) : Prop where
  pulses : p.pulses = first :: turns
  train : ∃ train, Pulse.train (Scalar.whole p.segment.cycles) (Scalar.whole s.period) s.phase
      p.segment.isRising = .ok train ∧
    List.Forall₂ (fun pulse placed => placed.level = pulse.level ∧
      ∃ x, l.grid.xAt (p.segment.start + pulse.offset) = .ok x ∧ placed.x = l.schemaX + x)
      train (first :: turns)
  opens : first.x = p.x₀
  room : p.x₀ < p.x₁
  inside : ∀ turn ∈ turns, p.x₀ < turn.x ∧ turn.x < p.x₁
  increasing : ((first :: turns).map PlacedPulse.x).Pairwise (· < ·)
  alternate : (first :: turns).IsChain fun a b => a.level ≠ b.level
  levels : ∀ turn ∈ first :: turns, turn.level = .high ∨ turn.level = .low

omit [IsStrictOrderedRing K] [FloorRing K] [ExactScalar K] in
/-- The levels of a placed clock are those of its train. -/
theorem PlacedSegment.Ticks.map_level {p : PlacedSegment K} {l : Layout K} {s : Signal K}
    {first : PlacedPulse K} {turns : List (PlacedPulse K)} (h : p.Ticks l s first turns) :
    ∃ train, Pulse.train (Scalar.whole p.segment.cycles) (Scalar.whole s.period) s.phase
        p.segment.isRising = .ok train ∧
      (first :: turns).map PlacedPulse.level = train.map Pulse.level := by
  obtain ⟨train, hTrain, hPlaces⟩ := h.train
  refine ⟨train, hTrain, ?_⟩
  have hLevels : List.Forall₂ (fun placed pulse => PlacedPulse.level placed = Pulse.level pulse)
      (first :: turns) train := (hPlaces.imp fun _ _ hPlace => hPlace.1).flip
  rwa [← List.forall₂_map_right_iff, ← List.forall₂_map_left_iff, List.forall₂_eq_eq_eq] at hLevels

namespace Frame

variable {f : Frame K} {o : Options K} {widths : List K} {c : Compiled K} {seg : Segment}
  {placed : PlacedSegment K}

/-- A pulse of a clock that starts at some cycle, at its place. -/
def placePulse (f : Frame K) (o : Options K) (widths : List K) (start : Int) (pulse : Pulse K) :
    PlacedPulse K :=
  ⟨f.schemaX + Grid.along o.scaledCycleWidth widths (start + pulse.offset), pulse.level⟩

theorem placePulses_eq (hAxis : f.grid = Grid.ofWidths o widths) (hSome : widths ≠ [])
    (hClock : seg.kind = .clock) {train : List (Pulse K)}
    (hTrain : Pulse.train (Scalar.whole seg.cycles) (Scalar.whole c.signal.period) c.signal.phase
      seg.isRising = .ok train) :
    f.placePulses c seg = .ok (train.map (f.placePulse o widths seg.start)) := by
  rw [placePulses, if_pos hClock, hTrain, ok_bind, hAxis, Grid.xsAt_ofWidths_eq_along o hSome,
    ok_bind, List.map_map, List.zipWith_map_left, List.zipWith_self]
  simp only [Function.comp_apply, ExactScalar.toFraction_eq, Scalar.whole_eq]
  rfl

omit [FloorRing K] [Scalar K] [ExactScalar K] in
/-- A pulse with a later offset lies further to the right. -/
theorem placePulse_lt (f : Frame K) (hFull : 0 < o.scaledCycleWidth) (hPositive : ∀ w ∈ widths, 0 < w)
    (start : Int) {a b : Pulse K} (h : a.offset < b.offset) :
    (f.placePulse o widths start a).x < (f.placePulse o widths start b).x :=
  add_lt_add_right (Grid.strictMono_along hFull hPositive (add_lt_add_right h _)) _

/-- A clock turns inside of its segment. -/
theorem PlacesSegment.ticks (h : f.PlacesSegment c seg placed) {l : Layout K} (hGrid : l.grid = f.grid)
    (hSchema : l.schemaX = f.schemaX) (hAxis : f.grid = Grid.ofWidths o widths) (hSome : widths ≠ [])
    (hFull : 0 < o.scaledCycleWidth) (hPositive : ∀ w ∈ widths, 0 < w)
    (hPeriod : 1 ≤ c.signal.period) (hCycles : 1 ≤ seg.cycles) (hClock : seg.kind = .clock) :
    ∃ first turns, placed.Ticks l c.signal first turns := by
  obtain ⟨rfl, hStart, hStop, hPulses, _⟩ := h
  have hLength : (0 : K) < placed.segment.cycles := by exact_mod_cast hCycles
  obtain ⟨first, turns, hTrain, hFirst, hInside, hOffsets, hAlternate, hLevels⟩ :=
    Pulse.exists_turns_of_train (Scalar.whole placed.segment.cycles) c.signal.phase hPeriod
      placed.segment.isRising
  rw [placePulses_eq hAxis hSome hClock hTrain, Except.ok.injEq] at hPulses
  rw [xOf_eq_along hAxis hSome, Except.ok.injEq] at hStart hStop
  let place := f.placePulse o widths placed.segment.start
  have hOrder {a b : Pulse K} (hLess : a.offset < b.offset) : (place a).x < (place b).x :=
    f.placePulse_lt hFull hPositive _ hLess
  -- The borders of the segment are the places of the offsets at its two ends.
  have hFrom : placed.x₀ = (place first).x := by
    rw [← hStart]
    simp only [place, placePulse, hFirst, add_zero]
  have hTo : placed.x₁ = (place ⟨placed.segment.cycles, .low⟩).x := by
    rw [← hStop, Segment.stop, Int.cast_add]
    rfl
  refine ⟨place first, turns.map place, {
    pulses := hPulses.symm
    train := ⟨_, hTrain, ?_⟩
    opens := hFrom.symm
    room := hFrom ▸ hTo ▸ hOrder (hFirst ▸ hLength)
    inside := ?_
    increasing := ?_
    alternate := ?_
    levels := ?_ }⟩
  · rw [← List.map_cons, List.forall₂_map_right_iff, List.forall₂_same]
    intro pulse _
    rw [hGrid, hAxis, hSchema]
    exact ⟨rfl, _, Grid.xAt_ofWidths_eq_along o hSome _, rfl⟩
  · refine List.forall_mem_map.mpr fun turn hTurn => ?_
    obtain ⟨hLater, hBefore⟩ := hInside turn hTurn
    rw [Scalar.whole_eq] at hBefore
    rw [hFrom, hTo]
    exact ⟨hOrder (hFirst ▸ hLater), hOrder hBefore⟩
  · rw [← List.map_cons, List.map_map, List.pairwise_map]
    exact hOffsets.imp hOrder
  · rw [← List.map_cons, List.isChain_map]
    exact hAlternate
  · rw [← List.map_cons]
    exact List.forall_mem_map.mpr hLevels

end Frame

namespace Layout

variable {d : Document K} {o : Options K} {l : Layout K} {frame : Frame K} {widths : List K}

/-- Every clock of a layout turns inside of its segment. -/
theorem Spreads.ticks (h : Spreads d o l frame widths) (hFull : 0 < o.scaledCycleWidth)
    {c : Compiled K} {s : PlacedSignal K} (hs : s ∈ l.signals) (hOwn : c.Genuine)
    (hSet : frame.Sets c s) {p : PlacedSegment K} (hp : p ∈ s.segments)
    (hClock : p.segment.kind = .clock) : ∃ first turns, p.Ticks l c.signal first turns := by
  obtain ⟨_, _, _, _, hPlaced⟩ := hSet
  obtain ⟨seg, hSeg, hPlaces⟩ :=
    exists_of_mem_forall₂ (Frame.segments_of_placeSignal hPlaced) hp
  have hCycles := ((tiles_of_compile hOwn.period hOwn.compiles).bounds seg hSeg).2.1
  exact hPlaces.ticks h.grid h.schemaX h.axis (h.ne_nil hs hp) hFull h.positive hOwn.period hCycles
    (hPlaces.segment ▸ hClock)

end Layout
end TimingDiagram
