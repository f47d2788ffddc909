import TimingDiagram.Proofs.Figure.Rendering
import TimingDiagram.Proofs.Layout.Position
import TimingDiagram.Proofs.Layout.Widths

/-! The width of the canvas in exact arithmetic. A signal takes the columns of its cycles from the
start of the time axis on, so that the longest signals end where the axis ends, and the mark of a break
lies inside the segment that has the break. -/
namespace TimingDiagram

variable {K : Type} [Field K] [LinearOrder K] [IsStrictOrderedRing K] [FloorRing K] [Scalar K]
  [ExactScalar K] {o : Options K} {widths : List K}

namespace Frame

variable {f : Frame K} {c : Compiled K} {placed : PlacedSignal K}

theorem xOf_eq_along (hAxis : f.grid = Grid.ofWidths o widths) (hSome : widths ≠ []) (cycle : Int) :
    f.xOf cycle = .ok (f.schemaX + Grid.along o.scaledCycleWidth widths cycle) := by
  rw [xOf, hAxis, Grid.xAt_ofWidths_eq_along o hSome, ok_bind, ExactScalar.checked_eq,
    Scalar.whole_eq]

theorem placeGapMark_eq_along (hAxis : f.grid = Grid.ofWidths o widths) (hSome : widths ≠ [])
    (c : Compiled K) (gap : Int) :
    f.placeGapMark c gap = .ok (f.schemaX + Grid.along o.scaledCycleWidth widths
      (gap + (min (c.signal.period : Int) (c.length - gap) : Int) / 2)) := by
  rw [placeGapMark, hAxis, Grid.xAt_ofWidths_eq_along o hSome, ok_bind, ExactScalar.checked_eq,
    Scalar.whole_eq, Scalar.whole_eq, ExactScalar.fraction_eq, Int.cast_ofNat, Nat.cast_one, div_one]

/-- Every break of a segment has a mark, and its mark lies inside the segment. -/
theorem Sets.gapMarks (h : f.Sets c placed) (hOwn : c.Genuine) (hAxis : f.grid = Grid.ofWidths o widths)
    (hSome : widths ≠ []) (hFull : 0 < o.scaledCycleWidth) (hPositive : ∀ w ∈ widths, 0 < w) :
    ∀ p ∈ placed.segments, p.gapMarks.length = p.segment.gaps.length ∧
      ∀ x ∈ p.gapMarks, p.x₀ < x ∧ x < p.x₁ := by
  obtain ⟨_, _, _, _, hPlaced⟩ := h
  obtain ⟨_, hTokens, hSegments, _⟩ := Signal.of_compile hOwn.compiles
  intro p hp
  obtain ⟨seg, hSeg, hPlaces⟩ := exists_of_mem_forall₂ (segments_of_placeSignal hPlaced) hp
  have hMarks := forall₂_of_mapM hPlaces.gapMarks
  refine ⟨by rw [hPlaces.segment, hMarks.length_eq], fun x hx => ?_⟩
  obtain ⟨gap, hGap, hMark⟩ := exists_of_mem_forall₂ hMarks hx
  have hPeriod : (1 : Int) ≤ c.signal.period := by exact_mod_cast hOwn.period
  obtain ⟨hFrom, hBefore, hTo⟩ := Segment.gap_room_resolve (lex_numbered hTokens) hPeriod
    (by exact Int.natCast_nonneg _) hSegments hSeg hGap
  rw [Option.getD_some] at hBefore hTo
  have hStart := hPlaces.start
  have hStop := hPlaces.stop
  rw [xOf_eq_along hAxis hSome, Except.ok.injEq] at hStart hStop
  rw [placeGapMark_eq_along hAxis hSome, Except.ok.injEq] at hMark
  -- The mark is in the middle of what is left of its symbol, which is at least a cycle.
  generalize hRest : min (c.signal.period : Int) (c.length - gap) = rest at hMark hTo
  have hLeft : (1 : K) ≤ rest := by exact_mod_cast (by omega : (1 : Int) ≤ rest)
  have hFirst : (seg.start : K) ≤ gap := by exact_mod_cast hFrom
  have hLast : (gap : K) + rest ≤ seg.stop := by exact_mod_cast hTo
  have hOrder := Grid.strictMono_along hFull hPositive
  rw [← hStart, ← hStop, ← hMark]
  exact ⟨add_lt_add_right (hOrder (by linarith)) _, add_lt_add_right (hOrder (by linarith)) _⟩

end Frame

namespace Layout

variable {d : Document K} {l : Layout K} {frame : Frame K}

/-- Where a signal has cycles, a longest one ends with the time axis. -/
theorem Spreads.exists_longest (h : Spreads d o l frame widths) {s : PlacedSignal K}
    (hs : s ∈ l.signals) (hCycles : 0 < s.length) :
    ∃ most ∈ l.signals, most.segments ≠ [] ∧ most.x₁ = l.schemaX + l.grid.width := by
  have hFits := (h.extent hs).1
  rcases h.longest with rfl | ⟨most, hMost, hLongest⟩
  · exact absurd hFits (not_le.mpr hCycles)
  · obtain ⟨_, _, hEmpty, hExtent⟩ := h.extent hMost
    have hSome : most.segments ≠ [] :=
      mt hEmpty.mp (hCycles.trans_le (hFits.trans_eq hLongest.symm)).ne'
    refine ⟨most, hMost, hSome, ?_⟩
    rw [(hExtent hSome).2, hLongest, List.take_length, h.gridWidth]

/-- Where anything is placed there is a column. -/
theorem Spreads.ne_nil (h : Spreads d o l frame widths) {s : PlacedSignal K} (hs : s ∈ l.signals)
    {p : PlacedSegment K} (hp : p ∈ s.segments) : widths ≠ [] := by
  obtain ⟨hFits, _, hEmpty, _⟩ := h.extent hs
  rintro rfl
  rw [hEmpty.mpr (Nat.le_zero.mp hFits)] at hp
  cases hp

theorem Spreads.gapMarks (h : Spreads d o l frame widths) (hFull : 0 < o.scaledCycleWidth)
    {s : PlacedSignal K} (hs : s ∈ l.signals) :
    ∀ p ∈ s.segments, p.gapMarks.length = p.segment.gaps.length ∧
      ∀ x ∈ p.gapMarks, p.x₀ < x ∧ x < p.x₁ := by
  obtain ⟨_, _, c, ⟨_, hOwn⟩, _, hSet⟩ := exists_of_mem_forall₂ h.signals hs
  intro p hp
  exact hSet.gapMarks hOwn h.axis (h.ne_nil hs hp) hFull h.positive p hp

/-- The canvas is as wide as the longest signal. The signals of a document are placed with the lengths
and the segments that they are compiled to. One with cycles goes from the start of the time axis to the
end of its last column, and one without cycles has no width; none goes past the end of the axis, and one
of them goes up to it if any has cycles. The axis is as wide as its columns together, and the canvas has
the names before it and the padding after it. Every break has its mark strictly inside its segment. -/
theorem layout_spans_columns (hPeriods : ∀ s ∈ d.signals, 1 ≤ s.period) (hOptions : o.Accepted)
    (h : (d.layout o).outcome = .ok l) :
    List.Forall₂ (fun s placed => ∃ c : Compiled K, s.compile.outcome = .ok c ∧
        placed.length = c.length ∧ placed.segments.map PlacedSegment.segment = c.segments)
      d.signals l.signals ∧
    (∀ s ∈ l.signals,
      (0 < s.length → ∃ x, l.grid.offsets[s.length]? = some x ∧ s.x₀ = l.schemaX ∧
        s.x₁ = l.schemaX + x) ∧
      (s.length = 0 → s.width = 0)) ∧
    (∀ s ∈ l.signals, s.segments ≠ [] → s.x₁ ≤ l.schemaX + l.grid.width) ∧
    ((∃ s ∈ l.signals, 0 < s.length) →
      ∃ s ∈ l.signals, s.segments ≠ [] ∧ s.x₁ = l.schemaX + l.grid.width) ∧
    l.grid.width = l.grid.widths.toList.sum ∧
    l.width = l.schemaX + l.grid.width + o.paddingRight ∧
    ∀ s ∈ l.signals, ∀ p ∈ s.segments, p.gapMarks.length = p.segment.gaps.length ∧
      ∀ x ∈ p.gapMarks, p.x₀ < x ∧ x < p.x₁ := by
  obtain ⟨frame, widths, hSpreads⟩ := spreads_of_layout hPeriods hOptions h
  obtain ⟨hSum, _, hInside⟩ := widths_of_layout hPeriods hOptions h
  have hFull : 0 < o.scaledCycleWidth := mul_pos hOptions.cycleWidth hOptions.hscale
  refine ⟨hSpreads.compiled, fun s hs => ⟨fun hCycles => ?_, fun hNone => ?_⟩, hInside,
    fun ⟨s, hs, hCycles⟩ => hSpreads.exists_longest hs hCycles, hSum, hSpreads.width,
    fun s hs => hSpreads.gapMarks hFull hs⟩
  · obtain ⟨hFits, _, hEmpty, hExtent⟩ := hSpreads.extent hs
    obtain ⟨hFrom, hTo⟩ := hExtent (mt hEmpty.mp hCycles.ne')
    rw [hSpreads.grid, hSpreads.axis]
    exact ⟨_, Grid.getElem?_offsets_ofWidths o widths hFits, hFrom, hTo⟩
  · rw [(hSpreads.extent hs).2.1, hNone, List.take_zero, List.sum_nil]

end Layout

namespace Description

/-- A lane that ends within its break, and one without cycles. -/
noncomputable def paused : Document ℝ where
  items := [
    .signal { name := "req", wave := "0|1", period := 2, phase := 0, cycles := some 3 },
    .signal { name := "ack", wave := "", phase := 0, cycles := some 0 }]
  edges := []
  options := Options.narrow
  head := none
  foot := none

theorem signals_paused : paused.signals = [
    { name := "req", wave := "0|1", period := 2, phase := 0, cycles := some 3 },
    { name := "ack", wave := "", phase := 0, cycles := some 0 }] := by
  rw [Document.signals, Item.signals_eq_leavesAll]
  rfl

theorem valid_paused : paused.Valid := by
  refine ⟨?_, Options.accepted_narrow⟩
  rw [signals_paused]
  simp

theorem sound_paused : paused.Sound := by
  have hSpell : "0|1".toList =
      Glyph.spell [⟨'0', .low, none⟩, ⟨'|', .gap, none⟩, ⟨'1', .high, none⟩] := by decide
  constructor
  · rw [signals_paused]
    refine List.forall_mem_cons.mpr ⟨?_, List.forall_mem_singleton.mpr ?_⟩
    · exact ⟨_, ⟨by decide, hSpell⟩, by decide, NodeSpec.endsAt_absent _,
        fun _ _ _ _ hAnchor => absurd rfl hAnchor⟩
    · exact ⟨[], ⟨nofun, rfl⟩, nofun, NodeSpec.endsAt_absent _, nofun⟩
  · rw [Document.declaredAnchors, signals_paused]
    exact List.nodup_nil

theorem layout_paused : ∃ l, (paused.layout Options.narrow).outcome = .ok l :=
  Document.succeeds_layout (Document.render_of_sound valid_paused sound_paused)

theorem compile_paused : paused.signals.map (fun s => s.compile.outcome.map fun c =>
    (c.length, c.segments.map Segment.gaps)) = [.ok (3, [[2]]), .ok (0, [])] := by
  have hTokens : lex "0|1" .absent "req" none = .ok [⟨0, '0', .low, .low, none, 0, none, none⟩,
      ⟨1, '|', .gap, .low, some .low, 0, none, none⟩,
      ⟨2, '1', .high, .high, some .low, 0, none, none⟩] := by cbv
  have hNone : lex "" .absent "ack" none = .ok [] := by cbv
  rw [signals_paused, List.map_cons, List.map_singleton, Signal.outcome_compile, hTokens,
    Signal.outcome_compile, hNone]
  rfl

theorem signals_of_layout_paused {l : Layout ℝ} (h : (paused.layout Options.narrow).outcome = .ok l) :
    ∃ s t p, l.signals = [s, t] ∧ s.length = 3 ∧ s.segments = [p] ∧ p.segment.gaps.length = 1 ∧
      t.length = 0 ∧ t.segments = [] := by
  obtain ⟨_, _, hSpreads⟩ := Layout.spreads_of_layout valid_paused.periods valid_paused.options h
  have hPlaced := hSpreads.compiled
  have hCompiled := compile_paused
  rw [signals_paused] at hPlaced hCompiled
  obtain ⟨s, _, ⟨a, ha, hLength, hSegments⟩, hRest, hAll⟩ := List.forall₂_cons_left_iff.mp hPlaced
  obtain ⟨t, _, ⟨b, hb, hOther, hNone⟩, hEnd, rfl⟩ := List.forall₂_cons_left_iff.mp hRest
  obtain rfl := List.forall₂_nil_left_iff.mp hEnd
  rw [List.map_cons, List.map_singleton, ha, hb] at hCompiled
  obtain ⟨⟨hThree, hGaps⟩, hZero, hEmpty⟩ : (a.length = 3 ∧ a.segments.map Segment.gaps = [[2]]) ∧
      b.length = 0 ∧ b.segments = [] := by simpa [Except.map] using hCompiled
  obtain ⟨seg, hSeg, hBreak⟩ := List.map_eq_singleton_iff.mp hGaps
  obtain ⟨p, hOwn, rfl⟩ := List.map_eq_singleton_iff.mp (hSegments.trans hSeg)
  exact ⟨s, t, p, hAll, hLength.trans hThree, hOwn, by rw [hBreak, List.length_singleton],
    hOther.trans hZero, List.map_eq_nil_iff.mp (hNone.trans hEmpty)⟩

/-- The only cycle of the break is marked in its segment, and the lane without cycles has no width. -/
theorem layout_spans_columns_paused :
    (∀ s ∈ paused.signals, 1 ≤ s.period) ∧ Options.narrow.Accepted ∧
      ∃ l, (paused.layout Options.narrow).outcome = .ok l ∧ ∃ s t p x, l.signals = [s, t] ∧
        s.length = 3 ∧ s.x₀ = l.schemaX ∧ s.x₁ = l.schemaX + l.grid.width ∧ t.width = 0 ∧
        s.segments = [p] ∧ p.gapMarks = [x] ∧ p.x₀ < x ∧ x < p.x₁ := by
  obtain ⟨l, hLayout⟩ := layout_paused
  obtain ⟨s, t, p, hAll, hThree, hOwn, hBreak, hZero, hNone⟩ := signals_of_layout_paused hLayout
  obtain ⟨_, hExtent, _, hLongest, _, _, hMarks⟩ :=
    Layout.layout_spans_columns valid_paused.periods valid_paused.options hLayout
  rw [hAll] at hExtent hLongest hMarks
  obtain ⟨_, _, hFrom, _⟩ := (hExtent s (by simp)).1 (by omega)
  have hIdle := (hExtent t (by simp)).2 hZero
  obtain ⟨last, hLast, hSome, hTo⟩ := hLongest ⟨s, by simp, by omega⟩
  obtain rfl : s = last := by
    rcases List.mem_pair.mp hLast with rfl | rfl
    · rfl
    · exact absurd hNone hSome
  obtain ⟨hCount, hInside⟩ := hMarks s (by simp) p (by simp [hOwn])
  obtain ⟨x, hx⟩ := List.length_eq_one_iff.mp (hCount.trans hBreak)
  exact ⟨valid_paused.periods, valid_paused.options, l, hLayout, s, t, p, x, hAll, hThree, hFrom,
    hTo, hIdle, hOwn, hx, hInside x (by simp [hx])⟩

end Description
end TimingDiagram
