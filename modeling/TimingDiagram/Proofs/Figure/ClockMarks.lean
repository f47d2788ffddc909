import TimingDiagram.Proofs.Figure.ClockLines

/-! The arrows of marked clocks in exact arithmetic. An arrow stands at every turn of a clock to the level
that it opens its periods with, and at its start where the line before it does not end at that level. -/
namespace TimingDiagram

variable {K : Type} [Field K] [LinearOrder K] [IsStrictOrderedRing K] [FloorRing K] [Scalar K]
  [ExactScalar K]

namespace Lane

variable {l : Lane K} {p : PlacedSegment K} {previous : Option (PlacedSegment K)} {level : Level}

omit [LinearOrder K] [IsStrictOrderedRing K] [FloorRing K] [ExactScalar K] in
theorem heightBefore_eq (l : Lane K) (previous : Option (PlacedSegment K)) :
    l.heightBefore previous = (previous.bind PlacedSegment.exit?).map l.levelY := by
  cases previous with
  | none => rfl
  | some before => exact l.exitY_eq before

/-- The line before ends at a height only if it ends at its level. -/
theorem heightBefore_beq (hHeight : 0 < l.height) :
    (l.heightBefore previous == some (l.levelY level)) =
      decide (previous.bind PlacedSegment.exit? = some level) := by
  rw [heightBefore_eq, Bool.eq_iff_iff, beq_iff_eq, decide_eq_true_eq]
  cases previous.bind PlacedSegment.exit? <;> simp [levelY_inj hHeight]

/-- An arrow stands at each turn to the opening level, and at the start if the clock opens with that
level and no line before it ends there. -/
theorem activeTurns_eq (hHeight : 0 < l.height) {first : PlacedPulse K} {turns : List (PlacedPulse K)}
    (h : p.pulses = first :: turns) :
    let target := Level.opening p.segment.isRising
    l.activeTurns p previous =
      (if first.level = target ∧ previous.bind PlacedSegment.exit? ≠ some target then [first] else []) ++
        turns.filter fun turn => turn.level = target := by
  intro target
  have hActive : l.activeTurns p previous =
      (if previous.bind PlacedSegment.exit? = some first.level then turns else first :: turns).filter
        fun turn => turn.level = target := by
    simp only [activeTurns, h, heightBefore_beq hHeight, decide_eq_true_eq]
    rfl
  rw [hActive]
  by_cases hEnded : previous.bind PlacedSegment.exit? = some first.level
  · have hShut : ¬ (first.level = target ∧ previous.bind PlacedSegment.exit? ≠ some target) :=
      fun ⟨hTarget, hOther⟩ => hOther (hTarget ▸ hEnded)
    rw [if_pos hEnded, if_neg hShut, List.nil_append]
  · rw [if_neg hEnded]
    by_cases hTarget : first.level = target
    · rw [List.filter_cons_of_pos (by simpa using hTarget), if_pos ⟨hTarget, hTarget ▸ hEnded⟩]
      rfl
    · rw [List.filter_cons_of_neg (by simpa using hTarget), if_neg fun hOpens => hTarget hOpens.1]
      rfl

end Lane

namespace Diagram

variable {g : Diagram K} {o : Options K} {l : Layout K} {c : Compiled K} {s : PlacedSignal K}
  {lane : Lane K} {before after strokes : List (Stroke K)} {stroke : Stroke K}

theorem Renders.arrows_clock (h : g.Renders o l c s lane strokes) (hHeight : 0 < o.waveHeight)
    (hSplit : strokes = before ++ stroke :: after) (hClock : stroke.segment.segment.kind = .clock)
    (hMarked : stroke.segment.segment.isMarked = true) :
    let target := Level.opening stroke.segment.segment.isRising
    let ended := (before.getLast?.map Stroke.segment).bind PlacedSegment.exit?
    ∃ first turns, stroke.segment.Ticks l c.signal first turns ∧
      List.Forall₂ (fun turn q => q.Arrow turn.x (s.y + o.waveHeight / 2) stroke.segment.segment.isRising)
        ((if first.level = target ∧ ended ≠ some target then [first] else []) ++
          turns.filter fun turn => turn.level = target) stroke.markers := by
  intro target ended
  obtain ⟨first, turns, hTicks⟩ := h.ticks _ (h.segment_mem (by simp [hSplit])) hClock
  have hMarkers := h.markers_eq hSplit
  rw [Lane.markers, hMarked, if_neg (by simp), if_pos hClock,
    Lane.activeTurns_eq (h.measures.height ▸ hHeight) hTicks.pulses] at hMarkers
  refine ⟨first, turns, hTicks, ?_⟩
  rw [hMarkers, List.forall₂_map_right_iff, List.forall₂_same, ← h.measures.middle]
  exact fun turn _ => lane.arrow_arrowMarker turn.x _

end Diagram

namespace Description

/-- The arrows of the marked clocks of a document. They stand in the middle of the lane, one at every
turn after the start of a clock to the level that it opens its periods with, so that the level before
is the other one. There is one at the start of a clock that opens with this level as well, unless a
line before it ends at the same level; without a line before it, that is so wherever in a period the
phase lets the clock start. -/
theorem render_marks_clocks {description : Description K} {options : Option (Options K)} {g : Diagram K}
    (hPromised : description.Promised) (hOptions : ∀ o ∈ options, o.check = .ok ())
    (h : (description.render options).outcome = .ok g) :
    ∃ d l, (description.load options).outcome = .ok d ∧ g.layout = some l ∧
      List.Forall₂ (fun s placed => placed.name = s.name ∧ ∃ c strokes,
        s.compile.outcome = .ok c ∧ placed.segments.map PlacedSegment.segment = c.segments ∧
        g.Shows placed strokes ∧ ∀ before stroke after, strokes = before ++ stroke :: after →
          stroke.segment.segment.kind = .clock → stroke.segment.segment.isMarked = true →
          let rising := stroke.segment.segment.isRising
          let target := Level.opening rising
          let ended := (before.getLast?.map Stroke.segment).bind PlacedSegment.exit?
          ∃ first turns, stroke.segment.Ticks l s first turns ∧
            List.Forall₂ (fun turn q => q.Arrow turn.x (placed.y + d.options.waveHeight / 2) rising)
              ((if first.level = target ∧ ended ≠ some target then [first] else []) ++
                turns.filter fun turn => turn.level = target) stroke.markers)
        d.signals l.signals := by
  obtain ⟨d, l, hLoad, hLayout, hAccepted, hSignals⟩ := renders_of_render hPromised hOptions h
  refine ⟨d, l, hLoad, hLayout, hSignals.imp ?_⟩
  rintro s placed ⟨c, lane, strokes, rfl, hRenders⟩
  exact ⟨hRenders.name, c, strokes, hRenders.own.compiles, hRenders.segments, hRenders.shows,
    fun before stroke after hSplit hClock hMarked =>
      hRenders.arrows_clock hAccepted.waveHeight hSplit hClock hMarked⟩

/-- A clock after a line at its opening level: there is no arrow where it goes on at that level, and one
where it comes back to it. -/
theorem render_marks_clocks_late :
    (parsed (Document.lone (late "hP." (some 2)))).Promised ∧
      ∃ g, ((parsed (Document.lone (late "hP." (some 2)))).render none).outcome = .ok g ∧
        ∃ placed before stroke, g.Shows placed [before, stroke] ∧
          before.segment.exit? = some .high ∧ ∃ first down up q,
            stroke.segment.pulses = [first, down, up] ∧ first.level = .high ∧ up.level = .high ∧
            stroke.markers = [q] ∧ q.Arrow up.x (placed.y + 12) true := by
  obtain ⟨hValid, g, hg⟩ := render_late
  obtain ⟨d, l, hLoad, _, hSignals⟩ := render_marks_clocks hValid.promised (by simp) hg
  obtain rfl : Document.lone (late "hP." (some 2)) = d := Except.ok.inj hLoad
  obtain ⟨placed, _, _, c, strokes, hc, hSegments, hShows, hClocks⟩ := Document.forall₂_lone hSignals
  obtain ⟨before, stroke, rfl, hBefore, hStroke⟩ := exists_strokes_late hc hSegments hShows
  obtain ⟨first, turns, hTicks, hArrows⟩ := hClocks [before] stroke [] rfl (by rw [hStroke])
    (by rw [hStroke]; rfl)
  have hRising : stroke.segment.segment.isRising = true := by rw [hStroke]; rfl
  have hWave := Document.waveHeight_lone (late "hP." (some 2))
  obtain ⟨down, up, rfl, hFirst, hDown, hUp⟩ := turns_late hTicks (by rw [hStroke]) hRising
  have hActive : (if first.level = Level.opening true ∧
        ([before].getLast?.map Stroke.segment).bind PlacedSegment.exit? ≠ some (Level.opening true)
      then [first] else []) ++ [down, up].filter (fun turn => turn.level = Level.opening true) = [up] := by
    simp [Level.opening, hBefore, hDown, hUp]
  simp only [hRising, hActive, hWave] at hArrows
  obtain ⟨q, _, hArrow, hNone, hMarkers⟩ := List.forall₂_cons_left_iff.mp hArrows
  rw [List.forall₂_nil_left_iff.mp hNone] at hMarkers
  have hHalf : (24 : ℝ) / 2 = 12 := by norm_num
  exact ⟨hValid.promised, g, hg, placed, before, stroke, hShows, hBefore, first, down, up, q,
    hTicks.pulses, hFirst, hUp, hMarkers, hHalf ▸ hArrow⟩

/-- A quarter of a cycle is no whole number of half periods, by far. -/
theorem quarter_between_turns (k : ℤ) : Pulse.tolerance < |(k : ℝ) * (1 / 2) - 1 / 4| := by
  rw [Pulse.tolerance_eq, lt_abs]
  rcases le_or_gt k 0 with hBefore | hAfter
  · have hWhole : (k : ℝ) ≤ 0 := by exact_mod_cast hBefore
    right
    linarith
  · have hWhole : (1 : ℝ) ≤ k := by exact_mod_cast hAfter
    left
    linarith

/-- The train of a late clock only goes on where the clock starts, and no line comes before it. Its start
carries an arrow all the same. -/
theorem late_start_marked :
    (∀ k : ℤ, Pulse.tolerance < |(k : ℝ) * (1 / 2) - (late "P" none).phase|) ∧
      ∃ g, ((parsed (Document.lone (late "P" none))).render none).outcome = .ok g ∧
        ∃ placed stroke, g.Shows placed [stroke] ∧
          stroke.segment.segment.tag = some .clockPosMarked ∧
          ∃ q ∈ stroke.markers, q.Arrow stroke.segment.x₀ (placed.y + 12) true := by
  refine ⟨fun k => (phase_late "P" none).symm ▸ quarter_between_turns k, ?_⟩
  have hValid : (Document.lone (late "P" none)).Valid := Document.valid_lone le_rfl
  obtain ⟨g, hg⟩ : Succeeds ((parsed (Document.lone (late "P" none))).render none).outcome :=
    Document.render_lone [⟨'P', .clockPosMarked, none⟩] le_rfl rfl (by decide) (by decide)
      (by decide)
  obtain ⟨d, l, hLoad, _, hAccepted, hSignals⟩ := renders_of_render hValid.promised (by simp) hg
  obtain rfl : Document.lone (late "P" none) = d := Except.ok.inj hLoad
  obtain ⟨placed, _, c, lane, strokes, hOwn, hRenders⟩ := Document.forall₂_lone hSignals
  have hSegments : c.segments =
      [{ kind := .clock, start := 0, cycles := 1, tag := some .clockPosMarked }] := by
    have hTokens : lex "P" .absent "clk" none =
        .ok [⟨0, 'P', .clockPosMarked, .clockPosMarked, none, 0, none, none⟩] := by cbv
    have hCompiles := hRenders.own.compiles
    rw [hOwn, Signal.outcome_compile, late, hTokens] at hCompiles
    cases hCompiles
    rfl
  obtain ⟨_, _, _, _, _, hTraced⟩ := id hRenders.shows
  have hShown := hRenders.segments
  rw [hSegments, ← hTraced.segments, List.map_map] at hShown
  obtain ⟨stroke, rfl, hStroke⟩ := List.map_eq_singleton_iff.mp hShown
  have hSegment : stroke.segment.segment =
      { kind := .clock, start := 0, cycles := 1, tag := some .clockPosMarked } := hStroke
  have hRising : stroke.segment.segment.isRising = true := by rw [hSegment]; rfl
  have hWave := Document.waveHeight_lone (late "P" none)
  have hFirst : [stroke] = [] ++ stroke :: [] := rfl
  obtain ⟨first, turns, hTicks, hArrows⟩ := hRenders.arrows_clock hAccepted.waveHeight hFirst
    (by rw [hSegment]) (by rw [hSegment]; rfl)
  rw [hOwn] at hTicks
  obtain ⟨down, up, rfl, hFirst, _⟩ := turns_late hTicks (by rw [hSegment]) hRising
  have hOpens : first.level = Level.opening true ∧
      (([] : List (Stroke ℝ)).getLast?.map Stroke.segment).bind PlacedSegment.exit? ≠
        some (Level.opening true) := ⟨hFirst, by simp⟩
  simp only [hRising, if_pos hOpens, hWave, List.singleton_append] at hArrows
  obtain ⟨q, others, hArrow, _, hMarkers⟩ := List.forall₂_cons_left_iff.mp hArrows
  have hHalf : (24 : ℝ) / 2 = 12 := by norm_num
  exact ⟨g, hg, placed, stroke, hRenders.shows, by rw [hSegment], q, hMarkers ▸ List.mem_cons_self,
    hTicks.opens ▸ hHalf ▸ hArrow⟩

end Description
end TimingDiagram
