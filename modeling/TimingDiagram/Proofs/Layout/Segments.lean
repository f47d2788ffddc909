import TimingDiagram.Proofs.Figure.Drawing
import TimingDiagram.Proofs.Wave.Meaning

/-! Placed segments, in any arithmetic. A segment starts where the one before it ends, as both
places are computed from one cycle, and what is drawn of it agrees with its symbol. -/
namespace TimingDiagram

variable {K : Type}

/-- A placed segment that can be drawn: a level has its height and a clock its turns, and it is
the lines alone that may have vertical edges. -/
structure PlacedSegment.Drawable (p : PlacedSegment K) : Prop where
  level : p.segment.kind = .level → p.segment.level ≠ none
  turns : p.segment.kind = .clock → p.pulses ≠ []
  sharp : p.segment.kind = .clock → p.segment.isSharp = true
  smooth : p.segment.isBox = true → p.segment.isSharp = false

/-- A compiled signal is what its signal is compiled to. -/
structure Compiled.Genuine (c : Compiled K) : Prop where
  period : 1 ≤ c.signal.period
  compiles : c.signal.compile.outcome = .ok c

theorem Document.genuine_of_compile {d : Document K} {items : List (Item (Compiled K))}
    (hPeriods : ∀ s ∈ d.signals, 1 ≤ s.period) (hItems : d.compile.outcome = .ok items) :
    List.Forall₂ (fun s c => c.signal = s ∧ c.Genuine) d.signals (Item.leavesAll items) := by
  have hCompiled := compile_eq_mapM d
  rw [hItems] at hCompiled
  refine ((List.forall₂_and_left _ _).mpr ⟨hPeriods, forall₂_of_mapM hCompiled.symm⟩).imp ?_
  rintro s c ⟨hPeriod, hCompile⟩
  obtain rfl := (Signal.of_compile hCompile).1
  exact ⟨rfl, hPeriod, hCompile⟩

theorem Segment.sharp_of_tag {s : Segment} {tag : Tag} (hTag : s.tag = some tag)
    (hKind : s.kind = .ofTag tag) :
    (s.kind = .clock → s.isSharp = true) ∧ (s.isBox = true → s.isSharp = false) := by
  rw [isBox, isSharp, hTag, hKind]
  cases tag <;> decide

variable [Add K] [Sub K] [Mul K] [Div K] [LT K] [LE K] [DecidableLT K] [DecidableLE K] [Scalar K]

namespace Pulse

omit [LE K] [DecidableLE K] in
theorem train_ne_nil {cycles period phase : K} {rising : Bool} {pulses : List (Pulse K)}
    (h : train cycles period phase rising = .ok pulses) : pulses ≠ [] := by
  rw [train] at h
  obtain ⟨_, _, h⟩ := bind_eq_ok_iff.mp h
  obtain ⟨_, _, h⟩ := bind_eq_ok_iff.mp h
  obtain ⟨_, _, h⟩ := bind_eq_ok_iff.mp h
  cases h
  exact List.cons_ne_nil _ _

end Pulse

namespace Grid

omit [Div K] in
theorem length_xsAt {g : Grid K} {cycles xs : List K} (h : g.xsAt cycles = .ok xs) :
    xs.length = cycles.length := by
  rw [xsAt, Scalar.allChecked] at h
  obtain ⟨checked, hChecked, h⟩ := bind_eq_ok_iff.mp h
  have hLength := (forall₂_of_mapM hChecked).length_eq
  rw [List.length_map] at hLength
  split_ifs at h
  all_goals
    cases h
    rw [List.length_map, hLength]

omit [Sub K] [Div K] [LE K] [DecidableLE K] in
theorem of_build [Max K] [Min K] {signals : List (Compiled K)} {o : Options K} {g : Grid K}
    (h : build signals o = .ok g) :
    ∃ widths, columnWidths signals o = .ok widths ∧ g = ofWidths o widths := by
  obtain ⟨widths, hWidths, h⟩ := bind_eq_ok_iff.mp h
  cases h
  exact ⟨widths, hWidths, rfl⟩

end Grid

namespace Frame

variable {f : Frame K} {s : Compiled K} {depth : Nat}

omit [Sub K] [Div K] [LE K] [DecidableLE K] in
theorem of_frameOf [Max K] [Min K] {o : Options K} {items : List (Item (Compiled K))}
    (h : Layout.frameOf o items = .ok f) :
    ∃ widths, Grid.columnWidths (Item.signals items) o = .ok widths ∧
      f.grid = Grid.ofWidths o widths := by
  rw [Layout.frameOf] at h
  obtain ⟨grid, hGrid, h⟩ := bind_eq_ok_iff.mp h
  obtain ⟨_, _, h⟩ := bind_eq_ok_iff.mp h
  obtain ⟨_, _, h⟩ := bind_eq_ok_iff.mp h
  obtain ⟨_, _, h⟩ := bind_eq_ok_iff.mp h
  cases h
  exact Grid.of_build hGrid

theorem pulses_ne_nil {seg : Segment} {pulses : List (PlacedPulse K)} (hClock : seg.kind = .clock)
    (h : f.placePulses s seg = .ok pulses) : pulses ≠ [] := by
  rw [placePulses, if_pos hClock] at h
  obtain ⟨train, hTrain, h⟩ := bind_eq_ok_iff.mp h
  obtain ⟨xs, hxs, h⟩ := bind_eq_ok_iff.mp h
  cases h
  have hLength := Grid.length_xsAt hxs
  rw [List.length_map] at hLength
  have hSome := List.length_pos_iff.mpr (Pulse.train_ne_nil hTrain)
  refine List.length_pos_iff.mp ?_
  rw [List.length_zipWith, hLength, Nat.min_self]
  exact hSome

/-- A placed signal has its segments in their order. -/
theorem segments_of_placeSignal {slot : Nat} {top : K} {placed : PlacedSignal K}
    {anchors : List (Anchor K)} (h : f.placeSignal s slot depth top = .ok (placed, anchors)) :
    List.Forall₂ (f.PlacesSegment s) s.segments placed.segments := by
  rw [placeSignal] at h
  obtain ⟨segments, hPlaced, h⟩ := bind_eq_ok_iff.mp h
  obtain ⟨_, _, h⟩ := bind_eq_ok_iff.mp h
  obtain ⟨_, _, h⟩ := bind_eq_ok_iff.mp h
  cases h
  exact (forall₂_of_mapM hPlaced).imp fun _ _ => of_placeSegment

/-- Segments that follow one another are placed one at the end of the other. -/
theorem isChain_of_forall₂ {segments : List Segment} {placed : List (PlacedSegment K)}
    (hPlaced : List.Forall₂ (f.PlacesSegment s) segments placed)
    (hChain : segments.IsChain fun left right => right.start = left.stop) :
    placed.IsChain fun a b => a.x₁ = b.x₀ := by
  induction hPlaced with
  | nil => exact .nil
  | cons hFirst hRest ih =>
      cases hRest with
      | nil => exact .singleton _
      | cons hSecond hRest =>
          obtain ⟨hBorder, hChain⟩ := List.isChain_cons_cons.mp hChain
          have hStart := hSecond.start
          rw [hBorder, hFirst.stop] at hStart
          exact List.isChain_cons_cons.mpr ⟨Except.ok.inj hStart, ih hChain⟩

/-- A signal is placed in some lane. -/
def Sets (f : Frame K) (s : Compiled K) (placed : PlacedSignal K) : Prop :=
  ∃ slot depth top anchors, f.placeSignal s slot depth top = .ok (placed, anchors)

/-- A placed signal has the cycles of its signal, and no segments only without any. -/
theorem Sets.length {placed : PlacedSignal K} (h : f.Sets s placed) (hOwn : s.Genuine) :
    placed.length = s.length ∧ (placed.segments = [] ↔ placed.length = 0) := by
  obtain ⟨_, _, _, _, h⟩ := h
  have hSegments := (of_placeSignal h).segments
  have hEmpty := (tiles_of_compile hOwn.period hOwn.compiles).partition.empty_iff
  rw [placeSignal] at h
  obtain ⟨_, _, h⟩ := bind_eq_ok_iff.mp h
  obtain ⟨_, _, h⟩ := bind_eq_ok_iff.mp h
  obtain ⟨_, _, h⟩ := bind_eq_ok_iff.mp h
  cases h
  refine ⟨rfl, ?_⟩
  rw [← List.map_eq_nil_iff (f := PlacedSegment.segment), hSegments, hEmpty]
  exact Int.natCast_eq_zero

mutual

theorem sets_of_placeItem {depth : Nat} {item : Item (Compiled K)} {c past : Cursor K}
    {block : Block K} (h : f.placeItem depth item c = .ok (block, past)) :
    List.Forall₂ f.Sets item.leaves (block.order.filterMap Placed.signal?) := by
  cases item with
  | signal s =>
      obtain ⟨_, placed, anchors, hPlaced, rfl⟩ := of_placeItem_signal h
      exact .cons ⟨_, _, _, anchors, hPlaced⟩ .nil
  | spacer =>
      obtain ⟨_, rfl⟩ := of_placeItem_spacer h
      exact .nil
  | group label members =>
      rcases of_placeItem_group h with
        ⟨hLanes, rfl, _⟩ | ⟨_, top, inner, inside, bottom, _, hInner, _, hBlock, _⟩
      · rw [Item.leaves, Item.leavesAll_eq_nil hLanes]
        exact .nil
      · have hSets := sets_of_placeItems hInner
        rcases of_bracketed hBlock with ⟨_, rfl⟩ | ⟨_, placed, _, _, rfl⟩
        · exact hSets
        · exact hSets

/-- The signals of some items are placed in their order. -/
theorem sets_of_placeItems {depth : Nat} {items : List (Item (Compiled K))}
    {c past : Cursor K} {block : Block K} (h : f.placeItems depth items c = .ok (block, past)) :
    List.Forall₂ f.Sets (Item.leavesAll items) (block.order.filterMap Placed.signal?) := by
  cases items with
  | nil =>
      cases h
      exact .nil
  | cons item rest =>
      obtain ⟨first, next, others, hFirst, hOthers, rfl⟩ := of_placeItems_cons h
      rw [Item.leavesAll, Block.append, List.filterMap_append]
      exact List.rel_append (sets_of_placeItem hFirst) (sets_of_placeItems hOthers)

end

/-- The segments of a placed signal can be drawn, and each starts where the one before it ends. -/
theorem Sets.segments {placed : PlacedSignal K} (h : f.Sets s placed)
    (hOwn : s.Genuine) :
    (∀ p ∈ placed.segments, p.Drawable) ∧
      placed.segments.IsChain fun a b => a.x₁ = b.x₀ := by
  obtain ⟨_, _, _, _, hPlaced⟩ := h
  have hSegments := segments_of_placeSignal hPlaced
  have hTiles := tiles_of_compile hOwn.period hOwn.compiles
  refine ⟨fun p hp => ?_, isChain_of_forall₂ hSegments hTiles.isChain⟩
  obtain ⟨seg, hSeg, hPlaces⟩ := exists_of_mem_forall₂ hSegments hp
  obtain ⟨tag, hTag, hKind⟩ := tag_of_compile hOwn.period hOwn.compiles seg hSeg
  obtain ⟨hSharp, hSmooth⟩ := Segment.sharp_of_tag hTag hKind
  have hLevel := (drawable_of_compile hOwn.period hOwn.compiles seg hSeg).1
  rw [← hPlaces.segment] at hSharp hSmooth hLevel
  refine ⟨hLevel, fun hClock => pulses_ne_nil ?_ hPlaces.pulses, hSharp, hSmooth⟩
  exact hPlaces.segment ▸ hClock

end Frame

/-- The signals of a document are compiled and set in their order. -/
theorem Layout.sets_of_compute [Max K] [Min K] {d : Document K} {o : Options K}
    {items : List (Item (Compiled K))} {l : Layout K} (hPeriods : ∀ s ∈ d.signals, 1 ≤ s.period)
    (hItems : d.compile.outcome = .ok items)
    (hLayout : (compute o items d.head d.foot).outcome = .ok l) :
    ∃ frame, frameOf o items = .ok frame ∧
      List.Forall₂ (fun s placed => ∃ c ∈ Item.leavesAll items,
        (c.signal = s ∧ c.Genuine) ∧ frame.Sets c placed) d.signals l.signals := by
  obtain ⟨frame, start, block, past, hParts⟩ := assembles_of_ofItems (of_compute hLayout)
  have hSets := Frame.sets_of_placeItems hParts.placed
  rw [← hParts.order] at hSets
  exact ⟨frame, hParts.framed, forall₂_comp (Document.genuine_of_compile hPeriods hItems) hSets⟩

end TimingDiagram
