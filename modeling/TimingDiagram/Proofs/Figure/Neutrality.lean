import TimingDiagram.Proofs.Figure.Accents
import TimingDiagram.Proofs.Figure.Interchange
import TimingDiagram.Proofs.Figure.Waves
import TimingDiagram.Proofs.Layout.Anchors

/-! Anchors and what is drawn. Without its anchors a signal keeps its lane and its columns, and the
arrows and breaks of its waveform. It keeps its transitions as well where no run ends that is sharp
in its last part and not at its start, or the other way round: a run is as sharp as its first symbol,
and an anchor makes its own symbol the first one of a run. -/
namespace TimingDiagram

variable {K : Type}

theorem cycleMarks_unanchored (period : Nat) (tokens : List Token) (length : Nat) :
    cycleMarks period (tokens.map Token.unanchored) length = cycleMarks period tokens length := by
  induction tokens generalizing length with
  | nil => rfl
  | cons t tokens ih =>
      rw [List.map_cons, cycleMarks, cycleMarks, ih]
      rfl

/-- Anchors take no room. -/
theorem Signal.footprint_unanchored {s : Signal K} {c : Compiled K} (hPeriod : 1 ≤ s.period)
    (h : s.compile.outcome = .ok c) :
    s.unanchored.compile.outcome.map Compiled.footprint =
      s.compile.outcome.map Compiled.footprint := by
  obtain ⟨rfl, _⟩ := of_compile h
  obtain ⟨_, _, hBare⟩ := compile_unanchored hPeriod h
  have hMarks : cycleMarks c.signal.unanchored.period (c.tokens.map Token.unanchored) c.length =
      cycleMarks c.signal.period c.tokens c.length := cycleMarks_unanchored _ _ _
  rw [h, hBare]
  exact congrArg Except.ok (Compiled.footprint_inj_iff.mpr ⟨rfl, rfl, hMarks⟩)

/-- Without its anchors a signal has the same breaks. -/
theorem Compiled.MergedFrom.flatMap_gaps_unanchored {c : Compiled K} {ps : List Segment}
    (h : c.MergedFrom ps) : (Segment.coalesce (ps.map Segment.unanchored)).flatMap Segment.gaps =
      c.segments.flatMap Segment.gaps := by
  rw [h.segments, Segment.flatMap_gaps_coalesce, Segment.flatMap_gaps_coalesce, List.flatMap_map]
  rfl

section Rooms

open FirmScalar

variable [Add K] [Sub K] [Mul K] [Div K] [LT K] [DecidableLT K] [Max K] [Min K] [Scalar K]
  [FirmScalar K]

/-- There is room for a signal without its anchors where there is room for it with them. -/
theorem Compiled.Steady.unanchored {s : Signal K} {c bare : Compiled K} (hSteady : c.Steady)
    (hPeriod : 1 ≤ s.period) (h : s.compile.outcome = .ok c)
    (hClock : ∀ t ∈ s.tokens, t.tag.isClock = false)
    (hBare : s.unanchored.compile.outcome = .ok bare) : bare.Steady := by
  obtain ⟨ps, hMerged, hCompiled⟩ := Signal.compile_unanchored hPeriod h
  have hBounds := (tiles_of_compile (s := s.unanchored) hPeriod hBare).bounds
  obtain rfl := Except.ok.inj (hCompiled.symm.trans hBare)
  obtain ⟨rfl, _⟩ := Signal.of_compile h
  rw [Signal.tokens_of_compile h] at hClock
  refine ⟨hSteady.name, hSteady.length, hSteady.columns, fun seg hSeg => ?_, fun seg hSeg gap hGap => ?_,
    fun seg hSeg hKind => ?_⟩
  · obtain ⟨hStart, hCycles, hStop⟩ := hBounds seg hSeg
    have hOrder : seg.start ≤ seg.stop := by rw [Segment.stop]; omega
    exact ⟨small_of_le hSteady.length hStart (hOrder.trans hStop),
      small_of_le hSteady.length (hStart.trans hOrder) hStop⟩
  · have hFound := List.mem_flatMap_of_mem hSeg hGap
    rw [hMerged.flatMap_gaps_unanchored] at hFound
    obtain ⟨own, hOwn, hGap⟩ := List.mem_flatMap.mp hFound
    exact hSteady.gaps own hOwn gap hGap
  · have hPlain := Segment.tagged_coalesce (Segment.tagged_unanchored (hMerged.steady hClock)) seg hSeg
    exact absurd hKind (Segment.Steady.kind_ne_clock hPlain)

end Rooms

section Waveforms

variable [Add K] [Sub K] [Mul K] [Div K] [LT K] [LE K] [DecidableLT K] [DecidableLE K] [BEq K]
  [Scalar K] {f : Frame K} {styles : Styles K} {roles : List Role} {c bare : Compiled K}
  {p q : PlacedSignal K} {wave other : List (Primitive K)}

/-- Where a cycle lies, if that can be computed. -/
def Frame.cycleX (f : Frame K) (cycle : Int) : K := (f.xOf cycle).toOption.getD Scalar.zero

omit [Div K] [LT K] [LE K] [DecidableLT K] [DecidableLE K] in
theorem Lane.markers_none {l : Lane K} {p : PlacedSegment K} (h : p.segment.kind ≠ .clock) :
    l.markers p none = [] := by
  simp [markers, h]

omit [Sub K] [Mul K] [LT K] [LE K] [DecidableLT K] [DecidableLE K] [BEq K] in
theorem Lane.ofSignal_congr (h : q.y = p.y) : ofSignal styles q = ofSignal styles p := by
  rw [ofSignal, ofSignal, h]

/-- A waveform without clocks shows, besides its bodies, what is drawn where its segments meet, and
then its breaks. -/
theorem Frame.Sets.depicting_waveform (hSets : f.Sets c p)
    (hForeign : ∀ role ∈ [Role.level, .clock, .fill, .box, .label], role ∉ roles)
    (hClock : ∀ seg ∈ c.segments, seg.kind ≠ .clock) (h : Lane.waveform styles p = .ok wave) :
    ∃ l, Lane.ofSignal styles p = .ok l ∧ depicting roles wave =
      depicting roles (l.accents (c.segments.map (Lane.spot f.cycleX))) ++
        depicting roles ((p.segments.flatMap PlacedSegment.gapMarks).flatMap l.gapMark) := by
  obtain ⟨_, _, _, _, hPlaced⟩ := hSets
  have hShown := (of_placeSignal hPlaced).segments
  have hPlain : ∀ seg ∈ p.segments,
      seg.segment.kind ≠ .clock ∧ seg.x₀ = f.cycleX seg.segment.start := by
    intro seg hSeg
    obtain ⟨own, hOwn, hPlaces⟩ := exists_of_mem_forall₂ (segments_of_placeSignal hPlaced) hSeg
    rw [hPlaces.segment, cycleX, hPlaces.start]
    exact ⟨hClock own hOwn, rfl⟩
  rw [Lane.waveform] at h
  obtain ⟨l, hLane, h⟩ := bind_eq_ok_iff.mp h
  refine ⟨l, hLane, ?_⟩
  rw [← hShown, List.map_map, Function.comp_def, ← Lane.accents_spot hPlain]
  cases hSegments : p.segments with
  | nil =>
      simp only [hSegments] at h
      cases h
      rfl
  | cons first rest =>
      simp only [hSegments] at h
      obtain ⟨_, _, h⟩ := bind_eq_ok_iff.mp h
      obtain ⟨drawn, hDrawn, h⟩ := bind_eq_ok_iff.mp h
      cases h
      have hFirst := (hPlain first (by simp [hSegments])).1
      rw [depicting_append, Lane.depicting_bodies hForeign hDrawn, Lane.markers_none hFirst,
        List.nil_append]

omit [BEq K] in
/-- In the same place two signals of one period and length have their breaks in the same places. -/
theorem Frame.Sets.gapMarks_eq (hSets : f.Sets c p) (hOther : f.Sets bare q)
    (hGaps : bare.segments.flatMap Segment.gaps = c.segments.flatMap Segment.gaps)
    (hPeriod : bare.signal.period = c.signal.period) (hLength : bare.length = c.length) :
    q.segments.flatMap PlacedSegment.gapMarks = p.segments.flatMap PlacedSegment.gapMarks := by
  obtain ⟨_, _, _, _, hPlaced⟩ := hSets
  obtain ⟨_, _, _, _, hBare⟩ := hOther
  have hMark : f.placeGapMark bare = f.placeGapMark c := by
    funext gap
    rw [placeGapMark, placeGapMark, hPeriod, hLength]
  have hFirst := mapM_gapMarks (segments_of_placeSignal hPlaced)
  have hSecond := mapM_gapMarks (segments_of_placeSignal hBare)
  rw [hGaps, hMark, hFirst] at hSecond
  exact (Except.ok.inj hSecond).symm

/-- In one lane a signal without clocks has the same waveform with its anchors and without, but for
its bodies and but for the transitions where the one row of segments ends a run as sharp and the
other does not. -/
theorem Frame.Sets.depicting_unanchored {ps : List Segment} (hSets : f.Sets c p)
    (hMerged : c.MergedFrom ps) (hClock : ∀ t ∈ c.tokens, t.tag.isClock = false)
    (hOther : f.Sets bare q) (hBare : bare = ⟨c.signal.unanchored, c.tokens.map Token.unanchored,
      Segment.coalesce (ps.map Segment.unanchored), c.length⟩) (hTop : q.y = p.y)
    (hMeasured : ∀ l, Lane.ofSignal styles p = .ok l → l.Measured)
    (hWave : Lane.waveform styles p = .ok wave) (hDrawn : Lane.waveform styles q = .ok other)
    (hForeign : ∀ role ∈ [Role.level, .clock, .fill, .box, .label], role ∉ roles)
    (hEnds : .transition ∈ roles → Segment.EndAlike c.segments bare.segments) :
    depicting roles other = depicting roles wave := by
  have hSteady := hMerged.steady hClock
  have hOwn : bare.segments = Segment.coalesce (ps.map Segment.unanchored) := by rw [hBare]
  have hGaps : bare.segments.flatMap Segment.gaps = c.segments.flatMap Segment.gaps :=
    hOwn ▸ hMerged.flatMap_gaps_unanchored
  have hMarks := hSets.gapMarks_eq hOther hGaps (by rw [hBare]; rfl) (by rw [hBare])
  have hKinds : ∀ seg ∈ c.segments, seg.kind ≠ .clock := fun seg hSeg =>
    Segment.Steady.kind_ne_clock
      (Segment.tagged_coalesce hSteady seg (hMerged.segments ▸ hSeg))
  have hOtherKinds : ∀ seg ∈ bare.segments, seg.kind ≠ .clock := fun seg hSeg =>
    Segment.Steady.kind_ne_clock
      (Segment.tagged_coalesce (Segment.tagged_unanchored hSteady) seg (hOwn ▸ hSeg))
  obtain ⟨l, hLane, hFirst⟩ := hSets.depicting_waveform hForeign hKinds hWave
  obtain ⟨lane, hSame, hSecond⟩ := hOther.depicting_waveform hForeign hOtherKinds hDrawn
  obtain rfl : l = lane := by
    rw [Lane.ofSignal_congr hTop, hLane] at hSame
    exact Except.ok.inj hSame
  rw [hMerged.segments, hOwn] at hEnds
  rw [hFirst, hSecond, hMarks, hMerged.segments, hOwn,
    Lane.accents_unanchored_coalesce (hMeasured l hLane) hMerged.tiles hMerged.labels hSteady hEnds]

end Waveforms

/-- The levels of all lanes have heights, each of which is equal to itself. -/
def Layout.Measured [Add K] [Mul K] [BEq K] [Scalar K] (l : Layout K) : Prop :=
  ∀ s ∈ l.signals, ∀ level : Level, let y := s.y + level.depth * l.options.waveHeight
    (y == y) = true

/-- In exact arithmetic every height is equal to itself. -/
theorem Layout.measured [Add K] [Mul K] [BEq K] [ReflBEq K] [Scalar K] (l : Layout K) :
    l.Measured :=
  fun _ _ _ => beq_self_eq_true _

namespace Signal

/-- The names of the anchors of a signal. -/
def anchorNames (s : Signal K) : List String := s.anchors.map Prod.fst

/-- A signal whose runs end as sharp with its anchors as without them. -/
def EndsAlike (s : Signal K) : Prop :=
  ∀ c bare, s.compile.outcome = .ok c → s.unanchored.compile.outcome = .ok bare →
    Segment.EndAlike c.segments bare.segments

/-- Without sharp symbols all runs end alike. -/
theorem endsAlike_of_plain {s : Signal K} (hPeriod : 1 ≤ s.period)
    (h : ∀ t ∈ s.tokens, t.tag.isSharp = false) : s.EndsAlike := by
  intro c bare hc hBare
  obtain ⟨ps, hMerged, hCompiled⟩ := compile_unanchored hPeriod hc
  obtain rfl := Except.ok.inj (hCompiled.symm.trans hBare)
  rw [tokens_of_compile hc] at h
  obtain ⟨hOwn, hOther⟩ := hMerged.plain h
  intro a ha b hb _ _ _ _ _
  rw [hOwn a (hMerged.segments ▸ ha), hOther b hb]

end Signal

theorem flatMap_set_sublist {α β : Type} {f : α → List β} {y : α} (h : f y = []) (i : Nat)
    (xs : List α) : ((xs.set i y).flatMap f).Sublist (xs.flatMap f) := by
  induction xs generalizing i with
  | nil => exact .slnil
  | cons x xs ih =>
      cases i with
      | zero =>
          rw [List.set_cons_zero, List.flatMap_cons, List.flatMap_cons, h]
          exact List.sublist_append_right _ _
      | succ i => exact (List.Sublist.refl (f x)).append (ih i)

namespace Document

variable {d : Document K} {i : Nat} {s : Signal K}

/-- The document without the anchors of one of its signals and without the edges that use them. -/
def unanchored (d : Document K) (i : Nat) (s : Signal K) : Document K :=
  { d.setSignal i s.unanchored with
    edges := d.edges.filter fun e => (e.knownEnds s.anchorNames).isEmpty }

theorem signals_unanchored (d : Document K) (i : Nat) (s : Signal K) :
    (d.unanchored i s).signals = d.signals.set i s.unanchored :=
  signals_setSignal d i s.unanchored

theorem anchorNames_unanchored (d : Document K) (i : Nat) (s : Signal K) :
    (d.unanchored i s).anchorNames.Sublist d.anchorNames := by
  rw [anchorNames, anchorNames, declaredAnchors, declaredAnchors, signals_unanchored]
  exact (flatMap_set_sublist rfl i d.signals).map Prod.fst

theorem periods_unanchored (hPeriods : ∀ s ∈ d.signals, 1 ≤ s.period)
    (hSignal : d.signals[i]? = some s) : ∀ t ∈ (d.unanchored i s).signals, 1 ≤ t.period := by
  rw [signals_unanchored]
  intro t ht
  rcases List.mem_or_eq_of_mem_set ht with hOld | rfl
  · exact hPeriods t hOld
  · exact hPeriods s (List.mem_of_getElem? hSignal)

theorem footprint_unanchored {c : Compiled K} (hSignal : d.signals[i]? = some s)
    (hPeriod : 1 ≤ s.period) (h : s.compile.outcome = .ok c) :
    (d.unanchored i s).compile.outcome.map (Item.mapAll Compiled.footprint) =
      d.compile.outcome.map (Item.mapAll Compiled.footprint) := by
  have hCompiled := compile_setSignal_congr (d := d) (i := i) (s.footprint_unanchored hPeriod h)
  rwa [setSignal_self hSignal] at hCompiled

variable [Add K] [Sub K] [Mul K] [Div K] [LT K] [LE K] [DecidableLT K] [DecidableLE K] [Max K]
  [Min K] [BEq K] [Scalar K] {g : Diagram K}

/-- Nothing stands against a figure without anchors but what cannot be computed. -/
theorem fault_of_render_unanchored (hPeriods : ∀ s ∈ d.signals, 1 ≤ s.period)
    (h : d.render.outcome = .ok g) (hSignal : d.signals[i]? = some s) {e : Error}
    (he : (d.unanchored i s).render.outcome = .error e) : ∃ cause, e = .fault cause := by
  obtain ⟨items, l, _, hItems, hLayout, _⟩ := of_render h
  have hMem := List.mem_of_getElem? hSignal
  obtain ⟨c, hc⟩ := compile_of_render h hMem
  have hCompiled := footprint_unanchored hSignal (hPeriods s hMem) hc
  cases hOthers : (d.unanchored i s).compile.outcome with
  | error e =>
      rw [hOthers, hItems] at hCompiled
      cases hCompiled
  | ok others =>
      have hLeaves := compile_eq_mapM (d.unanchored i s)
      rw [hOthers] at hLeaves
      have hDeclared := flatMap_declared (periods_unanchored hPeriods hSignal)
        (forall₂_of_mapM hLeaves.symm)
      rcases failsOnlyBy_render hOthers e he with hFault | hClash
      · exact hFault
      · have hNodup := l.anchors.nodup
        rw [← Registry.names, names_of_layout hPeriods hItems hLayout] at hNodup
        rw [hDeclared] at hClash
        exact absurd (hNodup.sublist (d.anchorNames_unanchored i s)) hClash.not_nodup

section Steady

open FirmScalar

omit [Add K] [Sub K] [Mul K] [Div K] [LT K] [LE K] [DecidableLT K] [DecidableLE K] [Max K] [Min K]
  [BEq K] [Scalar K] in
/-- Documents of one shape are equally deep at each step. -/
theorem depths_congr {t : Document K} {items others : List (Item (Compiled K))}
    (hItems : d.compile.outcome = .ok items) (hOthers : t.compile.outcome = .ok others)
    (hSame : Item.mapAll Compiled.footprint others = Item.mapAll Compiled.footprint items) :
    (Item.walk t.items).map Prod.snd = (Item.walk d.items).map Prod.snd := by
  have hDepths := congrArg (fun xs => (Item.stepsAll 0 xs).map Prod.snd) hSame
  simp only [Item.stepsAll_mapAll, List.map_map] at hDepths
  rw [← items_of_compile hItems, ← items_of_compile hOthers, Item.walk_eq_stepsAll,
    Item.walk_eq_stepsAll, Item.stepsAll_mapAll, Item.stepsAll_mapAll, List.map_map, List.map_map]
  exact hDepths

variable [FirmScalar K]

omit [LE K] [DecidableLE K] [BEq K] in
/-- There is room for a document without the anchors of a signal that has no clock in its wave,
where there is room for it with them. -/
theorem Steady.unanchored (hSteady : d.Steady) (hPeriod : 1 ≤ s.period)
    (hSignal : d.signals[i]? = some s) {c : Compiled K} (hc : s.compile.outcome = .ok c)
    (hClock : ∀ t ∈ s.tokens, t.tag.isClock = false) {items : List (Item (Compiled K))}
    (hItems : d.compile.outcome = .ok items) : (d.unanchored i s).Steady where
  options := hSteady.options
  signals t ht bare hBare := by
    rw [signals_unanchored] at ht
    rcases List.mem_or_eq_of_mem_set ht with hOld | rfl
    · exact hSteady.signals t hOld bare hBare
    · exact (hSteady.signals s (List.mem_of_getElem? hSignal) c hc).unanchored hPeriod hc hClock hBare
  depths step hStep := by
    have hCompiled := footprint_unanchored hSignal hPeriod hc
    rw [hItems] at hCompiled
    obtain ⟨others, hOthers, hSame⟩ := map_eq_ok_iff.mp hCompiled
    have hDepths := depths_congr hItems hOthers hSame
    obtain ⟨own, hOwn, hDepth⟩ := List.mem_map.mp (hDepths ▸ List.mem_map_of_mem hStep)
    exact hDepth ▸ hSteady.depths own hOwn
  labels e he := hSteady.labels e (List.mem_filter.mp he).1

/-- A figure that there is room for is also drawn without the anchors of a signal that has no clock in
its wave. -/
theorem Steady.succeeds_render_unanchored (hSteady : d.Steady)
    (hPeriods : ∀ s ∈ d.signals, 1 ≤ s.period) (hColours : 8 ≤ d.options.backgrounds.length)
    (h : d.render.outcome = .ok g) (hSignal : d.signals[i]? = some s)
    (hClock : ∀ t ∈ s.tokens, t.tag.isClock = false) :
    Succeeds (d.unanchored i s).render.outcome := by
  obtain ⟨items, _, _, hItems, _⟩ := of_render h
  have hMem := List.mem_of_getElem? hSignal
  obtain ⟨c, hc⟩ := compile_of_render h hMem
  have hBare := hSteady.unanchored (hPeriods s hMem) hSignal hc hClock hItems
  have hAll := periods_unanchored hPeriods hSignal
  rcases (d.unanchored i s).sound_or_offence with hSound | ⟨e, hOffence⟩
  · exact hBare.succeeds_render hAll hColours hSound
  · have hRefused := hBare.render_of_offence hAll hOffence
    obtain ⟨cause, rfl⟩ := fault_of_render_unanchored hPeriods h hSignal hRefused
    exact absurd rfl (hOffence.ne_fault cause)

end Steady

section Places

variable {t : Document K} {o : Options K} {items others : List (Item (Compiled K))} {l m : Layout K}
  {p q : PlacedSignal K}

omit [Sub K] [Mul K] [Div K] [LT K] [LE K] [DecidableLT K] [DecidableLE K] [Max K] [Min K] [BEq K]
  [Scalar K] in
/-- Documents of one shape have the tops of their lanes in the same places. -/
theorem topsAll_congr (hItems : d.compile.outcome = .ok items)
    (hOthers : t.compile.outcome = .ok others)
    (hSame : Item.mapAll Compiled.footprint others = Item.mapAll Compiled.footprint items)
    (o : Options K) (y : K) : Item.topsAll o y t.items = Item.topsAll o y d.items := by
  have hTops := congrArg (Item.topsAll o y) hSame
  rw [Item.topsAll_mapAll, Item.topsAll_mapAll] at hTops
  rw [← items_of_compile hItems, ← items_of_compile hOthers, Item.topsAll_mapAll,
    Item.topsAll_mapAll, hTops]

omit [BEq K] in
theorem slot_congr (hLayout : (Layout.compute o items d.head d.foot).outcome = .ok l)
    (hMoved : (Layout.compute o others t.head t.foot).outcome = .ok m)
    (hSame : Item.mapAll Compiled.footprint others = Item.mapAll Compiled.footprint items)
    (hp : l.signals[i]? = some p) (hq : m.signals[i]? = some q) : q.slot = p.slot := by
  have hSlots := congrArg (fun xs => (Item.slottedAll 0 xs).map Prod.snd) hSame
  simp only [Item.slottedAll_mapAll, List.map_map] at hSlots
  have hAll : m.signals.map PlacedSignal.slot = l.signals.map PlacedSignal.slot := by
    rw [Layout.slots_of_compute hLayout, Layout.slots_of_compute hMoved]
    exact hSlots
  have hOne := congrArg (·[i]?) hAll
  simpa [hp, hq] using hOne

omit [BEq K] in
/-- Signals of one footprint have their lanes in the same places. -/
theorem top_congr [CheckedScalar K] (hItems : d.compile.outcome = .ok items)
    (hOthers : t.compile.outcome = .ok others)
    (hSame : Item.mapAll Compiled.footprint others = Item.mapAll Compiled.footprint items)
    (hHead : t.head = d.head) (hLayout : (Layout.compute o items d.head d.foot).outcome = .ok l)
    (hMoved : (Layout.compute o others t.head t.foot).outcome = .ok m)
    (hp : l.signals[i]? = some p) (hq : m.signals[i]? = some q) : q.y = p.y := by
  obtain ⟨_, _, _, _, hParts⟩ := Layout.assembles_of_ofItems (Layout.of_compute hLayout)
  obtain ⟨_, _, _, _, hOther⟩ := Layout.assembles_of_ofItems (Layout.of_compute hMoved)
  have hFirst := Layout.tops_of_layout (layout_eq_ok_iff.mpr ⟨items, hItems, hLayout⟩) p
    (List.mem_of_getElem? hp)
  have hSecond := Layout.tops_of_layout (layout_eq_ok_iff.mpr ⟨others, hOthers, hMoved⟩) q
    (List.mem_of_getElem? hq)
  rw [topsAll_congr hItems hOthers hSame, slot_congr hLayout hMoved hSame hp hq, hOther.schemaY,
    hHead, ← hParts.schemaY, hFirst] at hSecond
  exact (Option.some.inj hSecond).symm

end Places

/-- Without the anchors of a signal that has no clock in its wave, and without the edges that use
them, a document is still drawn, as far as the figure can be computed: nothing else stands against it,
and this does not either where there is room for the document with the anchors. The signal has the
same arrows and breaks in it, and also the same transitions where its runs end as sharp as they do
with the anchors. -/
theorem render_unanchored [CheckedScalar K] (hPeriods : ∀ s ∈ d.signals, 1 ≤ s.period)
    (h : d.render.outcome = .ok g) (hMeasured : ∀ l, g.layout = some l → l.Measured)
    (hSignal : d.signals[i]? = some s) (hClock : ∀ t ∈ s.tokens, t.tag.isClock = false) :
    (∀ e, (d.unanchored i s).render.outcome = .error e → ∃ cause, e = .fault cause) ∧
      (∀ [FirmScalar K], d.Steady → 8 ≤ d.options.backgrounds.length →
        Succeeds (d.unanchored i s).render.outcome) ∧
      ∀ bare, (d.unanchored i s).render.outcome = .ok bare →
        ∃ wave other, g.waves[i]? = some wave ∧ bare.waves[i]? = some other ∧
          depicting [.marker, .gap] other = depicting [.marker, .gap] wave ∧
          (s.EndsAlike → depicting [.transition, .marker, .gap] other =
            depicting [.transition, .marker, .gap] wave) := by
  refine ⟨fun e he => fault_of_render_unanchored hPeriods h hSignal he,
    fun hSteady hColours => hSteady.succeeds_render_unanchored hPeriods hColours h hSignal hClock,
    fun bare hBare => ?_⟩
  have hOwn : (d.unanchored i s).signals[i]? = some s.unanchored := by
    obtain ⟨hi, _⟩ := List.getElem?_eq_some_iff.mp hSignal
    rw [signals_unanchored, List.getElem?_set_self hi]
  obtain ⟨items, l, frame, styles, c, p, wave, hItems, hLayout, hl, hFrame, hStyles, hc, hSets, hp,
    hWave, hDrawn⟩ := wave_of_render hPeriods h hSignal
  obtain ⟨others, m, frame', styles', c', q, other, hOthers, hMoved, _, hFrame', hStyles', hc',
    hSets', hq, hWave', hDrawn'⟩ :=
    wave_of_render (periods_unanchored hPeriods hSignal) hBare hOwn
  -- The lane, its columns and the styles are the same.
  have hPeriod := hPeriods s (List.mem_of_getElem? hSignal)
  have hSame := footprint_unanchored hSignal hPeriod hc
  rw [hOthers, hItems] at hSame
  have hSame := Except.ok.inj hSame
  have hTop : q.y = p.y := top_congr hItems hOthers hSame rfl hLayout hMoved hp hq
  obtain rfl : frame = frame' := by
    have hFrames := Layout.frameOf_congr d.options hSame
    exact Except.ok.inj (hFrame.symm.trans (hFrames.symm.trans hFrame'))
  obtain rfl : styles = styles' := Except.ok.inj (hStyles.symm.trans hStyles')
  obtain ⟨ps, hMerged, hCompiled⟩ := Signal.compile_unanchored hPeriod hc
  obtain rfl := (Signal.of_compile hc).1
  obtain rfl := Except.ok.inj (hCompiled.symm.trans hc')
  rw [Signal.tokens_of_compile hc] at hClock
  have hHeights : ∀ lane, Lane.ofSignal styles p = .ok lane → lane.Measured := by
    intro lane hLane level
    obtain ⟨_, _, _, _, hParts⟩ := Layout.assembles_of_ofItems (Layout.of_compute hLayout)
    obtain ⟨hStart, hHeight, _⟩ := Lane.of_ofSignal hLane
    have hOwn := hMeasured l hl p (List.mem_of_getElem? hp) level
    rw [hParts.options, ← Styles.options_of_ofOptions hStyles] at hOwn
    rw [Lane.levelY, hStart, hHeight]
    exact hOwn
  refine ⟨wave, other, hDrawn, hDrawn', ?_, fun hEnds => ?_⟩
  · exact hSets.depicting_unanchored hMerged hClock hSets' rfl hTop hHeights hWave hWave'
      (by decide) (fun h => absurd h (by decide))
  · exact hSets.depicting_unanchored hMerged hClock hSets' rfl hTop hHeights hWave hWave'
      (by decide) (fun _ => hEnds _ _ hc hc')

end Document

namespace Description

/-- A lane with an anchor at its second symbol. -/
noncomputable def lane (wave : String) : Signal ℝ :=
  { name := "a", wave, node := .letters ".a.", phase := 0 }

/-- One lane with an anchor at its second symbol. -/
noncomputable def solo (wave : String) : Document ℝ where
  items := [.signal (lane wave)]
  edges := []
  options := Options.default
  head := none
  foot := none

theorem signals_solo (wave : String) : (solo wave).signals = [lane wave] := by
  rw [Document.signals, Item.signals_eq_leavesAll]
  rfl

theorem solo_valid (wave : String) : (solo wave).Valid := by
  refine ⟨?_, Options.accepted_default⟩
  rw [signals_solo]
  exact List.forall_mem_singleton.mpr le_rfl

/-- A lane of three symbols can be drawn, with its anchor and without. -/
theorem render_solo {wave : String} {gs : List Glyph} (hValid : ∀ g ∈ gs, g.Valid)
    (hSpell : wave.toList = Glyph.spell gs) (hStart : ∀ g ∈ gs.head?, g.symbol ≠ '.')
    (hCount : gs.length = 3) :
    Succeeds (solo wave).render.outcome ∧
      Succeeds ((solo wave).unanchored 0 (lane wave)).render.outcome := by
  have hEnds : NodeSpec.EndsAt (.letters ".a.") gs.length := fun i hi =>
    NodeSpec.anchorAt_eq_none (by rw [hCount] at hi; exact hi)
  have hSound : (solo wave).Sound := by
    refine ⟨?_, ?_⟩
    · rw [signals_solo]
      exact List.forall_mem_singleton.mpr
        ⟨gs, ⟨hValid, hSpell⟩, hStart, hEnds, fun _ hCut => nomatch hCut.1⟩
    · have hAnchors : (lane wave).anchors = [("a", 1)] := rfl
      rw [Document.declaredAnchors, signals_solo, List.flatMap_singleton, hAnchors]
      exact List.nodup_singleton _
  have hDrawn := Document.render_of_sound (solo_valid wave) hSound
  obtain ⟨g, hg⟩ := hDrawn
  have hSignal : (solo wave).signals[0]? = some (lane wave) := by rw [signals_solo]; rfl
  have hPeriods := Document.periods_unanchored (solo_valid wave).periods hSignal
  refine ⟨⟨g, hg⟩, succeeds_iff.mpr fun e he => ?_⟩
  obtain ⟨cause, rfl⟩ :=
    Document.fault_of_render_unanchored (solo_valid wave).periods hg hSignal he
  exact Document.Valid.ne_fault ⟨hPeriods, Options.accepted_default⟩ cause he

/-- The anchor splits the first run, and nothing of it shows. -/
theorem render_unanchored_solo :
    ∃ g bare wave other, (solo "0.1").render.outcome = .ok g ∧
      ((solo "0.1").unanchored 0 (lane "0.1")).render.outcome = .ok bare ∧
      g.waves[0]? = some wave ∧ bare.waves[0]? = some other ∧
      depicting [.transition, .marker, .gap] other =
        depicting [.transition, .marker, .gap] wave := by
  have hLow : Glyph.Valid ⟨'0', .low, none⟩ := ⟨rfl, by simp⟩
  have hAgain : Glyph.Valid ⟨'.', .again, none⟩ := ⟨rfl, by simp⟩
  have hHigh : Glyph.Valid ⟨'1', .high, none⟩ := ⟨rfl, by simp⟩
  have hSpell : "0.1".toList =
      Glyph.spell [⟨'0', .low, none⟩, ⟨'.', .again, none⟩, ⟨'1', .high, none⟩] := by decide
  obtain ⟨⟨g, hg⟩, bare, hBare⟩ := render_solo (by simp [hLow, hAgain, hHigh]) hSpell (by simp) rfl
  have hTokens : (lane "0.1").tokens = [⟨0, '0', .low, .low, none, 0, none, none⟩,
      ⟨1, '.', .again, .low, some .low, 0, none, some "a"⟩,
      ⟨2, '1', .high, .high, some .low, 0, none, none⟩] := by
    have hLex : lex "0.1" (.letters ".a.") "a" none =
      .ok [⟨0, '0', .low, .low, none, 0, none, none⟩,
        ⟨1, '.', .again, .low, some .low, 0, none, some "a"⟩,
        ⟨2, '1', .high, .high, some .low, 0, none, none⟩] := by cbv
    simp [Signal.tokens, lane, hLex, Except.toOption]
  have hSignal : (solo "0.1").signals[0]? = some (lane "0.1") := by rw [signals_solo]; rfl
  obtain ⟨wave, other, hWave, hOther, _, hSame⟩ := (Document.render_unanchored
    (solo_valid "0.1").periods hg (fun l _ => l.measured) hSignal
    (by simp [hTokens, Tag.isClock])).2.2 bare hBare
  exact ⟨g, bare, wave, other, hg, hBare, hWave, hOther,
    hSame (Signal.endsAlike_of_plain le_rfl (by simp [hTokens, Tag.isSharp, Tag.isClock]))⟩

section Mixed

/-- The segments of a high that is sharp from its second symbol on, and of the low after it: with an
anchor at the second symbol. -/
def mixedSplit : List Segment := [
  { kind := .level, start := 0, cycles := 1, level := some .high, tag := some .high },
  { kind := .level, start := 1, cycles := 1, level := some .high, tag := some .highSharp,
    anchor := some "a" },
  { kind := .level, start := 2, cycles := 1, level := some .low, tag := some .low }]

/-- The same without the anchor: the high is one run, as sharp as its first symbol. -/
def mixedWhole : List Segment := [
  { kind := .level, start := 0, cycles := 2, level := some .high, tag := some .high },
  { kind := .level, start := 2, cycles := 1, level := some .low, tag := some .low }]

theorem compile_mixed :
    (∃ c, (lane "1h0").compile.outcome = .ok c ∧ c.segments = mixedSplit ∧
      ∀ t ∈ c.tokens, t.tag.isClock = false) ∧
    ∃ bare, (lane "1h0").unanchored.compile.outcome = .ok bare ∧ bare.segments = mixedWhole := by
  let tokens (anchor : Option String) : List Token := [⟨0, '1', .high, .high, none, 0, none, none⟩,
    ⟨1, 'h', .highSharp, .highSharp, some .high, 0, none, anchor⟩,
    ⟨2, '0', .low, .low, some .highSharp, 0, none, none⟩]
  have hTokens : lex "1h0" (.letters ".a.") "a" none = .ok (tokens (some "a")) := by cbv
  have hSegments : Segment.resolve (tokens (some "a")) 1 [] (some 3) "a" = .ok mixedSplit := rfl
  have hBareTokens : lex "1h0" .absent "a" none = .ok (tokens none) := by cbv
  have hBareSegments : Segment.resolve (tokens none) 1 [] (some 3) "a" = .ok mixedWhole := rfl
  exact ⟨⟨_, Signal.compile_eq_ok hTokens hSegments, rfl, by simp [tokens, Tag.isClock]⟩,
    _, Signal.compile_eq_ok hBareTokens hBareSegments, rfl⟩

variable {l : Lane ℝ} {x : Int → ℝ}

theorem levelY_high_ne_low (h : l.height ≠ 0) : l.levelY .high ≠ l.levelY .low := by
  simpa [Lane.levelY, Level.depth] using h

/-- The sharp part ends in a vertical step. -/
theorem transitions_mixedSplit (h : l.height ≠ 0) :
    (depicting [.transition] (l.accents (mixedSplit.map (Lane.spot x)))).map Primitive.points =
      [[⟨x 2, l.levelY .high⟩, ⟨x 2, l.levelY .low⟩]] := by
  simp [mixedSplit, Lane.accents, Lane.accent, Lane.joint, Lane.exitY, Lane.entryY, Lane.spot,
    Lane.step, Lane.markers, Segment.isSharp, Segment.isMarked, Tag.isSharp, Tag.isMarked,
    depicting_cons, Primitive.line, levelY_high_ne_low h]

/-- The run that is not sharp ends in a slope. -/
theorem transitions_mixedWhole (h : l.height ≠ 0) :
    (depicting [.transition] (l.accents (mixedWhole.map (Lane.spot x)))).map Primitive.points =
      [[⟨x 2 - l.reach, l.levelY .high⟩, ⟨x 2 + l.reach, l.levelY .low⟩]] := by
  simp [mixedWhole, Lane.accents, Lane.accent, Lane.joint, Lane.exitY, Lane.entryY, Lane.spot,
    Lane.slope, Lane.markers, Segment.isSharp, Segment.isMarked, Tag.isSharp, Tag.isClock,
    Tag.isMarked, depicting_cons, Primitive.line, levelY_high_ne_low h]

/-- An anchor at a sharp symbol that goes on a run which is not sharp shows: with the anchor the run
ends in a vertical step, and without it in a slope. -/
theorem render_unanchored_mixed :
    ∃ g bare wave other, (solo "1h0").signals[0]? = some (lane "1h0") ∧
      (∀ t ∈ (lane "1h0").tokens, t.tag.isClock = false) ∧
      (solo "1h0").render.outcome = .ok g ∧
      ((solo "1h0").unanchored 0 (lane "1h0")).render.outcome = .ok bare ∧
      g.waves[0]? = some wave ∧ bare.waves[0]? = some other ∧
      depicting [.transition, .marker, .gap] other ≠
        depicting [.transition, .marker, .gap] wave := by
  have hHigh : Glyph.Valid ⟨'1', .high, none⟩ := ⟨rfl, by simp⟩
  have hSharp : Glyph.Valid ⟨'h', .highSharp, none⟩ := ⟨rfl, by simp⟩
  have hLow : Glyph.Valid ⟨'0', .low, none⟩ := ⟨rfl, by simp⟩
  have hSpell : "1h0".toList =
      Glyph.spell [⟨'1', .high, none⟩, ⟨'h', .highSharp, none⟩, ⟨'0', .low, none⟩] := by decide
  obtain ⟨⟨g, hg⟩, bare, hBare⟩ := render_solo (by simp [hLow, hSharp, hHigh]) hSpell (by simp) rfl
  have hSignal : (solo "1h0").signals[0]? = some (lane "1h0") := by rw [signals_solo]; rfl
  have hOwn : ((solo "1h0").unanchored 0 (lane "1h0")).signals[0]? =
      some (lane "1h0").unanchored := by
    rw [Document.signals_unanchored, signals_solo]
    rfl
  have hPeriods := (solo_valid "1h0").periods
  obtain ⟨_, _, f, styles, c, p, wave, _, _, _, _, hStyles, hc, hSets, _, hWave, hDrawn⟩ :=
    Document.wave_of_render hPeriods hg hSignal
  obtain ⟨_, _, f', styles', c', q, other, _, _, _, _, hStyles', hc', hSets', _, hOther, hDrawn'⟩ :=
    Document.wave_of_render (Document.periods_unanchored hPeriods hSignal) hBare hOwn
  obtain ⟨⟨_, hSplit, hSegments, hClock⟩, _, hWhole, hBareSegments⟩ := compile_mixed
  obtain rfl := Except.ok.inj (hc.symm.trans hSplit)
  obtain rfl := Except.ok.inj (hc'.symm.trans hWhole)
  -- The transitions are those at the end of the high, one of them vertical.
  have hForeign : ∀ role ∈ [Role.level, .clock, .fill, .box, .label], role ∉ [Role.transition] := by
    decide
  obtain ⟨l, hLane, hFirst⟩ := hSets.depicting_waveform hForeign (by simp [hSegments, mixedSplit])
    hWave
  obtain ⟨l', hLane', hSecond⟩ := hSets'.depicting_waveform hForeign
    (by simp [hBareSegments, mixedWhole]) hOther
  have hBreaks (l : Lane ℝ) (xs : List ℝ) :
      depicting [.transition] (xs.flatMap l.gapMark) = [] := by
    rw [depicting_of_role (l.role_flatMap_gapMark xs), if_neg (by decide)]
  obtain ⟨_, hHeight, _⟩ := Lane.of_ofSignal hLane
  obtain ⟨_, hHeight', hReach⟩ := Lane.of_ofSignal hLane'
  rw [Styles.options_of_ofOptions hStyles] at hHeight
  rw [Styles.options_of_ofOptions hStyles'] at hHeight' hReach
  have hFirst := congrArg (List.map Primitive.points) hFirst
  have hSecond := congrArg (List.map Primitive.points) hSecond
  rw [hSegments, hBreaks, List.append_nil, transitions_mixedSplit (by
    norm_num [hHeight, solo, Options.default])] at hFirst
  rw [hBareSegments, hBreaks, List.append_nil, transitions_mixedWhole (by
    norm_num [hHeight', solo, Document.unanchored, Document.setSignal, Options.default])] at hSecond
  refine ⟨g, bare, wave, other, hSignal, ?_, hg, hBare, hDrawn, hDrawn', fun hSame => ?_⟩
  · rwa [Signal.tokens_of_compile hc]
  · have hKept := congrArg (fun ps => (depicting [.transition] ps).map Primitive.points) hSame
    have hSteps : [Role.transition] ⊆ [.transition, .marker, .gap] := by decide
    simp only [depicting_depicting hSteps, hFirst, hSecond, List.cons.injEq, Point.mk.injEq,
      and_true, hReach] at hKept
    obtain ⟨⟨hFrom, _⟩, hTo, _⟩ := hKept
    norm_num [solo, Document.unanchored, Document.setSignal, Options.default] at hFrom hTo
    linarith

end Mixed

end Description
end TimingDiagram
