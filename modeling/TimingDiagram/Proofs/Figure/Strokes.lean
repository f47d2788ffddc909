import TimingDiagram.Proofs.Figure.Extent
import TimingDiagram.Proofs.Layout.Pulses

/-! The strokes of a figure in exact arithmetic. Lines lie at the heights of their levels, a transition
leads from one level to another one, and arrows stand in the middle of their lane. -/
namespace TimingDiagram

namespace PlacedSegment

variable {K : Type}

/-- The level at which the line of a segment starts, if it is a line. -/
def entry? (p : PlacedSegment K) : Option Level :=
  match p.segment.kind with
  | .level => p.segment.level
  | .clock => p.pulses.head?.map PlacedPulse.level
  | _ => none

/-- The level at which the line of a segment ends, if it is a line. -/
def exit? (p : PlacedSegment K) : Option Level :=
  match p.segment.kind with
  | .level => p.segment.level
  | .clock => p.pulses.getLast?.map PlacedPulse.level
  | _ => none

variable {p : PlacedSegment K}

theorem ends_of_level (h : p.segment.kind = .level) :
    p.entry? = p.segment.level ∧ p.exit? = p.segment.level := by
  simp [h, entry?, exit?]

theorem ends_of_clock (h : p.segment.kind = .clock) :
    p.entry? = p.pulses.head?.map PlacedPulse.level ∧
      p.exit? = p.pulses.getLast?.map PlacedPulse.level := by
  simp [h, entry?, exit?]

end PlacedSegment

/-- Whether the way from one level to another leads up; it leads nowhere between equal ones. -/
def Level.turn? (u v : Level) : Option Bool := if u = v then none else some (u.rank < v.rank)

theorem Level.rank_injective : Function.Injective Level.rank := fun u v h =>
  Option.some.inj (by rw [← Level.ofRank?_rank u, h, Level.ofRank?_rank])

namespace Primitive

variable {K : Type} [Add K] [Sub K] [LT K] [OfNat K 3]

/-- An arrow at a place: a triangle around the middle of the lane that points up or down. -/
structure Arrow (p : Primitive K) (x middle : K) (up : Bool) : Prop where
  role : p.role = .marker
  closed : p.closed = true
  points : p.points =
    if up then [⟨x - 3, middle + 3⟩, ⟨x, middle - 3⟩, ⟨x + 3, middle + 3⟩]
    else [⟨x - 3, middle - 3⟩, ⟨x, middle + 3⟩, ⟨x + 3, middle - 3⟩]

/-- A transition at a place, or reaching to both of its sides, that leads up or down. -/
structure Transits (p : Primitive K) (x reach : K) (up : Bool) : Prop where
  role : p.role = .transition
  ends : ∃ first last, p.points.head? = some first ∧ p.points.getLast? = some last ∧
    (first.x = x ∧ last.x = x ∨ first.x = x - reach ∧ last.x = x + reach) ∧
    if up then last.y < first.y else first.y < last.y

end Primitive

namespace Lane

section Any

variable {K : Type} [Add K] [Mul K] [Scalar K] (l : Lane K) (p : PlacedSegment K)

theorem entryY_eq : l.entryY p = p.entry?.map l.levelY := by
  rw [entryY, PlacedSegment.entry?]
  cases p.segment.kind <;> simp [Function.comp_def]

theorem exitY_eq : l.exitY p = p.exit?.map l.levelY := by
  rw [exitY, PlacedSegment.exit?]
  cases p.segment.kind <;> simp [Function.comp_def]

end Any

variable {K : Type} [Field K] [LinearOrder K] [IsStrictOrderedRing K] [FloorRing K] [Scalar K]
  [ExactScalar K] {l : Lane K} {a b : PlacedSegment K} {u v : Level}

/-- The lane of a placed signal, with the sizes that the options give. -/
structure Measures (l : Lane K) (o : Options K) (s : PlacedSignal K) : Prop where
  top : l.top = s.y
  bottom : l.bottom = s.y + o.waveHeight
  middle : l.middle = s.y + o.waveHeight / 2
  height : l.height = o.waveHeight
  reach : l.reach = o.transitionOffset

theorem measures_of_ofSignal {styles : Styles K} {s : PlacedSignal K} (h : ofSignal styles s = .ok l) :
    l.Measures styles.options s := by
  rw [ofSignal, ExactScalar.checked_eq, ok_bind, ExactScalar.checked_eq, ok_bind, Scalar.whole_eq] at h
  cases h
  exact ⟨rfl, rfl, by rw [Int.cast_ofNat], rfl, rfl⟩

/-- A level lies above the bottom of its lane by its share of the height. -/
theorem levelY_eq (l : Lane K) (level : Level) :
    l.levelY level = l.top + l.height - level.rank / 2 * l.height := by
  rw [levelY]
  cases level <;> simp only [Level.depth, Level.rank, ExactScalar.fraction_eq] <;> push_cast <;> ring

/-- Of two levels the higher one is drawn further up. -/
theorem levelY_lt_iff (hHeight : 0 < l.height) : l.levelY u < l.levelY v ↔ v.rank < u.rank := by
  rw [levelY_eq, levelY_eq, sub_lt_sub_iff_left, mul_lt_mul_iff_left₀ hHeight,
    div_lt_div_iff_of_pos_right two_pos, Nat.cast_lt]

theorem levelY_inj (hHeight : 0 < l.height) : l.levelY u = l.levelY v ↔ u = v := by
  refine ⟨fun h => Level.rank_injective ?_, congrArg l.levelY⟩
  have hUp : ¬ v.rank < u.rank := mt (levelY_lt_iff hHeight).mpr h.not_lt
  have hDown : ¬ u.rank < v.rank := mt (levelY_lt_iff hHeight).mpr h.not_gt
  omega

theorem levelY_turn (hHeight : 0 < l.height) (hOther : u ≠ v) :
    if decide (u.rank < v.rank) then l.levelY v < l.levelY u else l.levelY u < l.levelY v := by
  have hRank : u.rank ≠ v.rank := mt (@Level.rank_injective u v) hOther
  simp only [levelY_lt_iff hHeight, decide_eq_true_eq]
  split_ifs <;> omega

/-- Two lines meet in a transition from the level of the one to that of the other, and in nothing if
the levels are the same. -/
theorem transits_joint (hHeight : 0 < l.height) (hBefore : a.exit? = some u) (hAfter : b.entry? = some v) :
    List.Forall₂ (fun up q => q.Transits b.x₀ l.reach up) (u.turn? v).toList
      (l.joint a b).strokes := by
  have hExit : l.exitY a = some (l.levelY u) := by rw [exitY_eq, hBefore, Option.map_some]
  have hEntry : l.entryY b = some (l.levelY v) := by rw [entryY_eq, hAfter, Option.map_some]
  have hSame : (l.levelY u == l.levelY v) = decide (u = v) := by
    rw [Bool.eq_iff_iff, beq_iff_eq, decide_eq_true_eq, levelY_inj hHeight]
  by_cases hEdge : HardEdge a b
  · simp only [joint_of_hardEdge hEdge, hExit, hEntry, step, hSame, decide_eq_true_eq, Level.turn?]
    split_ifs with hLevel
    · exact .nil
    · exact .cons ⟨rfl, _, _, rfl, rfl, .inl ⟨rfl, rfl⟩, levelY_turn hHeight hLevel⟩ .nil
  · simp only [joint_of_lines hEdge hExit hEntry, hSame, decide_eq_true_eq, Level.turn?]
    split_ifs with hLevel
    · exact .nil
    · obtain ⟨hFirst, hLast⟩ := l.points_slope a b b.x₀ (l.levelY u) (l.levelY v)
      exact .cons ⟨l.role_slope _ _ _ _ _, _, _, hFirst, hLast, .inr ⟨rfl, rfl⟩,
        levelY_turn hHeight hLevel⟩ .nil

theorem arrow_arrowMarker (l : Lane K) (x : K) (up : Bool) :
    (l.arrowMarker x up).Arrow x l.middle up := by
  refine ⟨rfl, rfl, ?_⟩
  have hSize : (markerSize : K) = 3 := by
    rw [markerSize, ExactScalar.fraction_eq]
    norm_num
  simp only [arrowMarker, Primitive.shape, hSize]

end Lane

/-- A signal of a figure: it is laid out as it is compiled, and its strokes are drawn in its lane. -/
structure Diagram.Renders {K : Type} [Field K] [LinearOrder K] [FloorRing K] [Scalar K] (g : Diagram K)
    (o : Options K) (l : Layout K) (c : Compiled K) (s : PlacedSignal K) (lane : Lane K)
    (strokes : List (Stroke K)) : Prop where
  name : s.name = c.signal.name
  own : c.Genuine
  segments : s.segments.map PlacedSegment.segment = c.segments
  ticks : ∀ p ∈ s.segments, p.segment.kind = .clock → ∃ first turns, p.Ticks l c.signal first turns
  drawable : ∀ p ∈ s.segments, p.Drawable
  shows : g.Shows s strokes
  carries : lane.Carries s strokes
  measures : lane.Measures o s

namespace Diagram.Renders

variable {K : Type} [Field K] [LinearOrder K] [FloorRing K] [Scalar K] {g : Diagram K} {o : Options K}
  {l : Layout K} {c : Compiled K} {s : PlacedSignal K} {lane : Lane K}
  {strokes before after : List (Stroke K)} {a b stroke : Stroke K} {p : PlacedSegment K}

theorem segment_mem (h : g.Renders o l c s lane strokes) (hStroke : stroke ∈ strokes) :
    stroke.segment ∈ s.segments := by
  obtain ⟨start, hTraces⟩ := h.carries.traces
  exact hTraces.segments ▸ List.mem_map_of_mem hStroke

theorem mem_compiled (h : g.Renders o l c s lane strokes) (hp : p ∈ s.segments) :
    p.segment ∈ c.segments :=
  h.segments ▸ List.mem_map_of_mem hp

/-- The marks of a stroke are those of its segment after the one before it. -/
theorem markers_eq (h : g.Renders o l c s lane strokes) (hSplit : strokes = before ++ stroke :: after) :
    stroke.markers = lane.markers stroke.segment (before.getLast?.map Stroke.segment) := by
  rw [h.carries.marked before stroke after hSplit, Option.or_none]

/-- A stroke meets the next one, and its segment ends where that of the next one starts. -/
theorem meets (h : g.Renders o l c s lane strokes) (hSplit : strokes = before ++ a :: b :: after) :
    lane.Meets a b ∧ b.segment.segment.start = a.segment.segment.stop := by
  obtain ⟨start, hTraces⟩ := h.carries.traces
  have hBorders := (tiles_of_compile h.own.period h.own.compiles).isChain
  rw [← h.segments, ← hTraces.segments, List.map_map, List.isChain_map, hSplit] at hBorders
  have hMeets := hTraces.meets
  rw [hSplit] at hMeets
  exact ⟨(List.isChain_cons_cons.mp hMeets.right_of_append).1,
    (List.isChain_cons_cons.mp hBorders.right_of_append).1⟩

end Diagram.Renders

namespace Description

variable {K : Type} [Field K] [LinearOrder K] [IsStrictOrderedRing K] [FloorRing K] [Scalar K]
  [ExactScalar K]

/-- The signals of a document are drawn in their order. -/
theorem renders_of_render {description : Description K} {options : Option (Options K)} {g : Diagram K}
    (hPromised : description.Promised) (hOptions : ∀ o ∈ options, o.check = .ok ())
    (h : (description.render options).outcome = .ok g) :
    ∃ d l, (description.load options).outcome = .ok d ∧ g.layout = some l ∧ d.options.Accepted ∧
      List.Forall₂ (fun s placed => ∃ c lane strokes, c.signal = s ∧
        g.Renders d.options l c placed lane strokes) d.signals l.signals := by
  rw [render, Logged.outcome_bind] at h
  obtain ⟨d, hLoad, h⟩ := bind_eq_ok_iff.mp h
  obtain ⟨hPeriods, hAccepted⟩ := valid_of_load hPromised hOptions hLoad
  obtain ⟨items, l, edges, hItems, hLayout, _, hDrawn, hg⟩ := Document.of_render h
  obtain ⟨frame, widths, hSpreads⟩ := Layout.spreads_of_layout hPeriods hAccepted
    (Document.layout_eq_ok_iff.mpr ⟨items, hItems, hLayout⟩)
  have hFull : 0 < d.options.scaledCycleWidth := mul_pos hAccepted.cycleWidth hAccepted.hscale
  refine ⟨d, l, hLoad, by rw [hg], hAccepted, List.Forall₂.flip ?_⟩
  refine ((List.forall₂_and_left _ _).mpr ⟨fun _ hs => hs, hSpreads.signals.flip⟩).imp ?_
  rintro placed s ⟨hMem, c, ⟨rfl, hOwn⟩, _, hSet⟩
  obtain ⟨hDrawable, hBorder⟩ := hSet.segments hOwn
  obtain ⟨styles, lane, strokes, hStyles, hLane, hCarries, hShows⟩ :=
    Figure.carries_of_emit hDrawn hMem hDrawable hBorder
  have hMeasures := Lane.measures_of_ofSignal hLane
  rw [Styles.options_of_ofOptions hStyles] at hMeasures
  have hTicks : ∀ p ∈ placed.segments, p.segment.kind = .clock →
      ∃ first turns, p.Ticks l c.signal first turns := fun p hp hClock =>
    hSpreads.ticks hFull hMem hOwn hSet hp hClock
  obtain ⟨_, _, _, _, hPlaced⟩ := hSet
  have hShown := Frame.of_placeSignal hPlaced
  exact ⟨c, lane, strokes, rfl, hShown.name, hOwn, hShown.segments, hTicks, hDrawable, hShows,
    hCarries, hMeasures⟩

end Description
namespace Document

/-- A document with a single lane. -/
noncomputable def lone (s : Signal ℝ) : Document ℝ where
  items := [.signal s]
  edges := []
  options := Options.default
  head := none
  foot := none

variable {s : Signal ℝ}

theorem signals_lone (s : Signal ℝ) : (lone s).signals = [s] := by
  rw [signals, Item.signals_eq_leavesAll]
  rfl

theorem waveHeight_lone (s : Signal ℝ) : (lone s).options.waveHeight = 24 := by
  simp [lone, Options.default]

theorem forall₂_lone {β : Type} {r : Signal ℝ → β → Prop} {ys : List β}
    (h : List.Forall₂ r (lone s).signals ys) : ∃ y, ys = [y] ∧ r s y := by
  rw [signals_lone] at h
  obtain ⟨y, rest, hOwn, hRest, rfl⟩ := List.forall₂_cons_left_iff.mp h
  exact ⟨y, by rw [List.forall₂_nil_left_iff.mp hRest], hOwn⟩

theorem valid_lone (hPeriod : 1 ≤ s.period) : (lone s).Valid := by
  refine ⟨?_, Options.accepted_default⟩
  rw [signals_lone]
  exact List.forall_mem_singleton.mpr hPeriod

theorem sound_lone (gs : List Glyph) (hNode : s.node = .absent) (hGlyphs : ∀ g ∈ gs, g.Valid)
    (hSpell : s.wave.toList = Glyph.spell gs) (hStart : ∀ g ∈ gs.head?, g.symbol ≠ '.') :
    (lone s).Sound := by
  constructor
  · rw [signals_lone]
    refine List.forall_mem_singleton.mpr ⟨gs, ⟨hGlyphs, hSpell⟩, hStart, ?_, ?_⟩
    · rw [hNode]
      exact NodeSpec.endsAt_absent _
    · rw [hNode]
      exact fun _ _ _ _ hAnchor => absurd rfl hAnchor
  · rw [declaredAnchors, signals_lone, List.flatMap_singleton, Signal.anchors, hNode]
    exact List.nodup_nil

/-- A single lane without anchors is drawn if its wave can be read. -/
theorem render_lone (gs : List Glyph) (hPeriod : 1 ≤ s.period) (hNode : s.node = .absent)
    (hGlyphs : ∀ g ∈ gs, g.Valid) (hSpell : s.wave.toList = Glyph.spell gs)
    (hStart : ∀ g ∈ gs.head?, g.symbol ≠ '.') : Succeeds (lone s).render.outcome :=
  render_of_sound (valid_lone hPeriod) (sound_lone gs hNode hGlyphs hSpell hStart)

end Document
end TimingDiagram
