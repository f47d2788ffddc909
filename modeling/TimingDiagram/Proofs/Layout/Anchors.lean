import TimingDiagram.Proofs.Figure.BrokenEdges
import TimingDiagram.Proofs.Layout.Axis
import TimingDiagram.Proofs.Layout.Outline
import TimingDiagram.Proofs.Layout.Starts

/-! The anchors of a layout. Each lane adds the anchors of its own signal, one for every token that
is anchored, and nothing else adds any; slot, cycle and place are those of the lane and of the
token, whatever has been merged, cut off or shrunk around it. -/
namespace TimingDiagram

namespace Item

variable {α β : Type}

mutual

/-- The signals of an item with so many lanes before it, each with the slot of its lane. -/
def slotted (before : Nat) : Item α → List (α × Nat)
  | signal s => [(s, before)]
  | spacer => []
  | group _ members => slottedAll before members

def slottedAll (before : Nat) : List (Item α) → List (α × Nat)
  | [] => []
  | item :: rest => item.slotted before ++ slottedAll (before + item.lanes) rest

end

mutual

theorem map_fst_slotted (before : Nat) (item : Item α) :
    (item.slotted before).map Prod.fst = item.leaves := by
  cases item with
  | signal s => rfl
  | spacer => rfl
  | group label members => exact map_fst_slottedAll before members

theorem map_fst_slottedAll (before : Nat) (items : List (Item α)) :
    (slottedAll before items).map Prod.fst = leavesAll items := by
  cases items with
  | nil => rfl
  | cons item items =>
      rw [slottedAll, leavesAll, List.map_append, map_fst_slotted before item,
        map_fst_slottedAll _ items]

end

mutual

theorem slotted_map (f : α → β) (before : Nat) (item : Item α) :
    (item.map f).slotted before = (item.slotted before).map (Prod.map f id) := by
  cases item with
  | signal s => rfl
  | spacer => rfl
  | group label members => exact slottedAll_mapAll f before members

theorem slottedAll_mapAll (f : α → β) (before : Nat) (items : List (Item α)) :
    slottedAll before (mapAll f items) = (slottedAll before items).map (Prod.map f id) := by
  cases items with
  | nil => rfl
  | cons item items =>
      rw [mapAll, slottedAll, slottedAll, List.map_append, slotted_map f before item, lanes_map,
        slottedAll_mapAll f _ items]

end

theorem slottedAll_of_lanesAll_eq_zero {items : List (Item α)} (before : Nat)
    (h : lanesAll items = 0) : slottedAll before items = [] := by
  have hNone := map_fst_slottedAll before items
  rwa [leavesAll_eq_nil h, List.map_eq_nil_iff] at hNone

end Item

variable {K : Type}

/-- A compiled signal in its lane, with the anchors that its placement gives. -/
structure Berth (K : Type) where
  signal : Compiled K
  placed : PlacedSignal K
  anchors : List (Anchor K)

namespace Frame

variable [Add K] [Sub K] [Mul K] [Div K] [LT K] [LE K] [DecidableLT K] [DecidableLE K] [Scalar K]

/-- A berth is what the placement of its signal in its lane gives. -/
def Fills (f : Frame K) (b : Berth K) : Prop :=
  ∃ depth, f.placeSignal b.signal b.placed.slot depth b.placed.y = .ok (b.placed, b.anchors)

/-- A block that consists of berths for some signals in their slots. -/
structure Berths (f : Frame K) (block : Block K) (slotted : List (Compiled K × Nat))
    (berths : List (Berth K)) : Prop where
  slots : berths.map (fun b => (b.signal, b.placed.slot)) = slotted
  signals : block.order.filterMap Placed.signal? = berths.map Berth.placed
  anchors : block.anchors = berths.flatMap Berth.anchors
  fills : ∀ b ∈ berths, f.Fills b

variable {f : Frame K} {c past : Cursor K} {block first others : Block K}
  {slotted more : List (Compiled K × Nat)} {berths next : List (Berth K)}

theorem berths_of_empty (f : Frame K) (hOrder : block.order.filterMap Placed.signal? = [])
    (hAnchors : block.anchors = []) : f.Berths block [] [] :=
  ⟨rfl, hOrder, hAnchors, nofun⟩

theorem Berths.append (h : f.Berths first slotted berths) (hMore : f.Berths others more next) :
    f.Berths (first.append others) (slotted ++ more) (berths ++ next) where
  slots := by rw [List.map_append, h.slots, hMore.slots]
  signals := by rw [Block.append, List.filterMap_append, h.signals, hMore.signals, List.map_append]
  anchors := by rw [Block.append, h.anchors, hMore.anchors, List.flatMap_append]
  fills := List.forall_mem_append.mpr ⟨h.fills, hMore.fills⟩

omit [Sub K] [Mul K] [Div K] [LT K] [LE K] [DecidableLT K] [DecidableLE K] in
theorem slot_of_pastLane (h : f.pastLane c = .ok past) : past.slot = c.slot + 1 := by
  rw [pastLane] at h
  obtain ⟨_, _, h⟩ := bind_eq_ok_iff.mp h
  cases h
  rfl

theorem anchors_of_placeSignal {s : Compiled K} {slot depth : Nat} {top : K} {placed : PlacedSignal K}
    {anchors : List (Anchor K)} (h : f.placeSignal s slot depth top = .ok (placed, anchors)) :
    ∃ middle, Scalar.checked (top + f.options.waveHeight / Scalar.whole 2) = .ok middle ∧
      anchors = placed.segments.filterMap (anchorOf s slot middle) := by
  rw [placeSignal] at h
  obtain ⟨segments, _, h⟩ := bind_eq_ok_iff.mp h
  obtain ⟨_, _, h⟩ := bind_eq_ok_iff.mp h
  obtain ⟨middle, hMiddle, h⟩ := bind_eq_ok_iff.mp h
  cases h
  exact ⟨middle, hMiddle, rfl⟩

mutual

theorem berths_of_placeItem {depth : Nat} {item : Item (Compiled K)} {c past : Cursor K}
    {block : Block K} (h : f.placeItem depth item c = .ok (block, past)) :
    past.slot = c.slot + item.lanes ∧ ∃ berths, f.Berths block (item.slotted c.slot) berths := by
  cases item with
  | signal s =>
      obtain ⟨hPast, placed, anchors, hPlaced, rfl⟩ := of_placeItem_signal h
      have hSignal := of_placeSignal hPlaced
      refine ⟨slot_of_pastLane hPast, [⟨s, placed, anchors⟩], ?_, rfl, ?_, ?_⟩
      · rw [List.map_singleton, hSignal.slot]
        rfl
      · exact (List.append_nil anchors).symm
      · refine List.forall_mem_singleton.mpr ⟨depth, ?_⟩
        rw [hSignal.slot, hSignal.top, hPlaced]
  | spacer =>
      obtain ⟨hPast, rfl⟩ := of_placeItem_spacer h
      exact ⟨slot_of_pastLane hPast, [], berths_of_empty f rfl rfl⟩
  | group label members =>
      rw [Item.lanes, Item.slotted]
      rcases of_placeItem_group h with
        ⟨hLanes, rfl, rfl⟩ | ⟨_, top, inner, inside, bottom, _, hInner, _, hBlock, rfl⟩
      · rw [hLanes, Item.slottedAll_of_lanesAll_eq_zero _ hLanes]
        exact ⟨rfl, [], berths_of_empty f rfl rfl⟩
      · obtain ⟨hSlot, berths, hBerths⟩ := berths_of_placeItems hInner
        -- A bracket adds neither signals nor anchors.
        rcases of_bracketed hBlock with ⟨_, rfl⟩ | ⟨_, placed, _, _, rfl⟩
        · exact ⟨hSlot, berths, hBerths⟩
        · exact ⟨hSlot, berths, hBerths.slots, hBerths.signals, hBerths.anchors, hBerths.fills⟩

/-- Items are placed signal by signal, each in the slot that the lanes before it leave. -/
theorem berths_of_placeItems {depth : Nat} {items : List (Item (Compiled K))}
    {c past : Cursor K} {block : Block K} (h : f.placeItems depth items c = .ok (block, past)) :
    past.slot = c.slot + Item.lanesAll items ∧
      ∃ berths, f.Berths block (Item.slottedAll c.slot items) berths := by
  cases items with
  | nil =>
      cases h
      exact ⟨rfl, [], berths_of_empty f rfl rfl⟩
  | cons item rest =>
      obtain ⟨first, middle, others, hFirst, hOthers, rfl⟩ := of_placeItems_cons h
      obtain ⟨hSlot, berths, hBerths⟩ := berths_of_placeItem hFirst
      obtain ⟨hEnd, next, hNext⟩ := berths_of_placeItems hOthers
      rw [hSlot] at hEnd hNext
      exact ⟨by rw [hEnd, Item.lanesAll, Nat.add_assoc], berths ++ next, hBerths.append hNext⟩

end

end Frame

/-- The slots of the placed signals are those of their items. -/
theorem Layout.slots_of_compute [Add K] [Sub K] [Mul K] [Div K] [LT K] [LE K] [DecidableLT K]
    [DecidableLE K] [Max K] [Min K] [Scalar K] {o : Options K} {items : List (Item (Compiled K))}
    {head foot : Option Caption} {l : Layout K} (h : (compute o items head foot).outcome = .ok l) :
    l.signals.map PlacedSignal.slot = (Item.slottedAll 0 items).map Prod.snd := by
  obtain ⟨_, _, _, _, hParts⟩ := assembles_of_ofItems (of_compute h)
  obtain ⟨_, berths, hBerths⟩ := Frame.berths_of_placeItems hParts.placed
  rw [signals, hParts.order, hBerths.signals, ← hBerths.slots, List.map_map, List.map_map]
  rfl

/-- The tokens of a signal; a wave that cannot be read has none. -/
def Signal.tokens (s : Signal K) : List Token :=
  (lex s.wave s.node s.name none).toOption.getD []

theorem Signal.tokens_of_compile {s : Signal K} {c : Compiled K}
    (h : s.compile.outcome = .ok c) : s.tokens = c.tokens := by
  rw [tokens, (of_compile h).2.1]
  rfl

/-- The anchors of a signal in a lane with a slot and a top: for each anchored token the start of
its column, at half the height of the lane. -/
def Layout.anchorsOf [Add K] [Div K] [Scalar K] (l : Layout K) (s : Signal K) (slot : Nat) (top : K) :
    List (Anchor K) :=
  s.tokens.filterMap fun t => t.anchor.map fun name =>
    { name := name
      signal := s.name
      slot := slot
      cycle := t.index * s.period
      x := l.schemaX + l.grid.offset (t.index * s.period)
      y := top + l.options.waveHeight / Scalar.whole 2 }

section Doubles

variable [Memory]

/-- An anchor in its place. It lies where the axis has its cycle, and that is the start of the column if
the column has a finite width. -/
structure Layout.Registers (l : Layout Quantity) (place a : Anchor Quantity) : Prop where
  same : a = { place with x := a.x }
  axis : ∃ x, l.grid.xAt (Scalar.whole place.cycle) = .ok x ∧ a.x = l.schemaX + x
  start : (l.grid.columnWidth place.cycle.toNat).IsFinite → a.x = place.x

namespace Frame

variable {f : Frame Quantity} {o : Options Quantity} {widths : List Quantity}

/-- A segment of a compiled signal starts where the axis has its first column. -/
theorem x₀_of_placesSegment {s : Compiled Quantity} {seg : Segment} {placed : PlacedSegment Quantity}
    (hGrid : f.grid = Grid.ofWidths o widths) (hWidths : ∀ w ∈ widths, ∃ x, w = .known (.real x))
    (hStart : 0 ≤ seg.start) (hInside : seg.start.toNat < f.grid.total)
    (h : f.PlacesSegment s seg placed) :
    (∃ x, f.grid.xAt (Scalar.whole seg.start) = .ok x ∧ placed.x₀ = f.schemaX + x) ∧
      ((f.grid.columnWidth seg.start.toNat).IsFinite →
        placed.x₀ = f.schemaX + f.grid.offset seg.start.toNat) := by
  obtain ⟨x, hx, hChecked⟩ := bind_eq_ok_iff.mp h.start
  have hPlace := CheckedScalar.eq_of_checked hChecked
  refine ⟨⟨x, hx, hPlace⟩, fun hFinite => ?_⟩
  have hOffset := Grid.xAt_of_isFinite hGrid hWidths hInside hFinite
  rw [Int.toNat_of_nonneg hStart, hx, Except.ok.injEq] at hOffset
  rw [hPlace, hOffset]

/-- The anchors that a lane adds are those of the tokens of its signal, each in its place. -/
theorem Fills.anchors {b : Berth Quantity} {l : Layout Quantity} (h : f.Fills b)
    (hOwn : b.signal.Genuine) (hGrid : f.grid = Grid.ofWidths o widths)
    (hWidths : ∀ w ∈ widths, ∃ x, w = .known (.real x)) (hFits : b.signal.length ≤ widths.length)
    (hAxis : l.grid = f.grid) (hSchema : l.schemaX = f.schemaX) (hOptions : l.options = f.options) :
    List.Forall₂ l.Registers (l.anchorsOf b.signal.signal b.placed.slot b.placed.y) b.anchors := by
  obtain ⟨depth, hPlaced⟩ := h
  obtain ⟨_, hTokens, hSegments, _⟩ := Signal.of_compile hOwn.compiles
  obtain ⟨middle, hMiddle, hAnchors⟩ := anchors_of_placeSignal hPlaced
  obtain rfl := CheckedScalar.eq_of_checked hMiddle
  let point (a : String × Int) : Anchor Quantity :=
    ⟨a.1, b.signal.signal.name, b.placed.slot, a.2, l.schemaX + l.grid.offset a.2.toNat,
      b.placed.y + f.options.waveHeight / Scalar.whole 2⟩
  -- The anchors that tokens have are found again at the starts of segments.
  have hPoints : l.anchorsOf b.signal.signal b.placed.slot b.placed.y =
      (b.signal.segments.filterMap fun seg => seg.anchor.map fun name => (name, seg.start)).map point := by
    rw [Segment.anchors_resolve (lex_numbered hTokens) (by exact_mod_cast hOwn.period) hSegments,
      List.map_filterMap, Layout.anchorsOf, Signal.tokens_of_compile hOwn.compiles]
    refine List.filterMap_congr fun t _ => ?_
    rw [Option.map_map, hOptions]
    rfl
  have hBounds := (tiles_of_compile hOwn.period hOwn.compiles).bounds
  have hPlaces := (List.forall₂_and_left _ _).mpr ⟨hBounds, segments_of_placeSignal hPlaced⟩
  rw [hPoints, hAnchors, List.map_filterMap]
  refine List.rel_filterMap (fun seg placed hSegment => ?_) hPlaces
  obtain ⟨⟨hFrom, hCycles, hTo⟩, hPlace⟩ := hSegment
  have hInside : seg.start.toNat < f.grid.total := by
    have hTotal : f.grid.total = widths.length := by rw [hGrid]; rfl
    simp only [Segment.stop] at hTo
    omega
  have hPlaceX := x₀_of_placesSegment hGrid hWidths hFrom hInside hPlace
  rw [anchorOf, hPlace.segment, Option.map_map]
  cases seg.anchor with
  | none => exact .none
  | some name =>
      refine .some ⟨rfl, ?_, ?_⟩
      · rw [hAxis, hSchema]
        exact hPlaceX.1
      · rw [hAxis]
        intro hFinite
        change placed.x₀ = l.schemaX + l.grid.offset seg.start.toNat
        rw [hPlaceX.2 hFinite, hAxis, hSchema]

end Frame

namespace Layout

variable {d : Document Quantity} {o : Options Quantity} {l : Layout Quantity}

/-- The anchors of a layout are those of the anchored tokens of its signals in document order, each
in the lane of its signal. -/
theorem anchors_of_layout (hPeriods : ∀ s ∈ d.signals, 1 ≤ s.period)
    (h : (d.layout o).outcome = .ok l) :
    List.Forall₂ l.Registers (((Item.slottedAll 0 d.items).zip l.signals).flatMap fun lane =>
        l.anchorsOf lane.1.1 lane.1.2 lane.2.y) l.anchors.anchors ∧
      ∀ s ∈ d.signals, lex s.wave s.node s.name none = .ok s.tokens ∧
        ∀ t ∈ s.tokens, t.anchor ≠ none → t.index * s.period < l.grid.total := by
  obtain ⟨items, hItems, hLayout⟩ := Document.layout_eq_ok_iff.mp h
  obtain ⟨frame, start, block, past, hParts⟩ := assembles_of_ofItems (of_compute hLayout)
  obtain ⟨widths, hColumns, hGrid⟩ := Frame.of_frameOf hParts.framed
  obtain ⟨hLength, hWidths⟩ := Grid.fractions_of_columnWidths hColumns
  have hDeclared : Item.mapAll Compiled.signal items = d.items :=
    Document.items_of_compile hItems
  have hGenuine := Document.genuine_of_compile hPeriods hItems
  have hFits {c : Compiled Quantity} (hc : c ∈ Item.leavesAll items) : c.length ≤ widths.length := by
    rw [hLength, Item.signals_eq_leavesAll]
    exact Compiled.length_le_longest hc
  obtain ⟨_, berths, hBerths⟩ := Frame.berths_of_placeItems hParts.placed
  have hSlotted : Item.slottedAll 0 d.items =
      berths.map fun b => (b.signal.signal, b.placed.slot) := by
    rw [← hDeclared, Item.slottedAll_mapAll, ← hBerths.slots, List.map_map]
    rfl
  have hSignals : l.signals = berths.map Berth.placed := by
    rw [signals, hParts.order, hBerths.signals]
  have hOwn : ∀ b ∈ berths, b.signal ∈ Item.leavesAll items := by
    rw [← Item.map_fst_slottedAll 0, ← hBerths.slots, List.map_map]
    exact fun b hb => List.mem_map_of_mem hb
  refine ⟨?_, fun s hs => ?_⟩
  · rw [hSlotted, hSignals, List.zip_map', List.flatMap_map,
      Registry.anchors_of_ofList hParts.anchors, hBerths.anchors]
    have hSame : List.Forall₂ (fun b c => b = c ∧ b ∈ berths) berths berths :=
      List.forall₂_same.mpr fun b hb => ⟨rfl, hb⟩
    refine List.rel_flatMap hSame fun b c hBerth => ?_
    obtain ⟨rfl, hb⟩ := hBerth
    obtain ⟨_, _, _, hCompiled⟩ := exists_of_mem_forall₂ hGenuine (hOwn b hb)
    exact (hBerths.fills b hb).anchors hCompiled hGrid hWidths (hFits (hOwn b hb)) hParts.grid
      hParts.schemaX (hParts.options.trans (options_of_frameOf hParts.framed).symm)
  · obtain ⟨c, hc, rfl, hCompiled⟩ := exists_of_mem_forall₂ hGenuine.flip hs
    obtain ⟨_, hTokens, hSegments, _⟩ := Signal.of_compile hCompiled.compiles
    rw [Signal.tokens_of_compile hCompiled.compiles]
    refine ⟨hTokens, fun t ht hAnchor => ?_⟩
    have hBefore := Segment.anchored_before_length (lex_numbered hTokens)
      (by exact_mod_cast hCompiled.period) hSegments t ht hAnchor
    rw [Option.getD_some] at hBefore
    rw [hParts.grid, hGrid]
    exact (by exact_mod_cast hBefore : t.index * c.signal.period < c.length).trans_le (hFits hc)

end Layout

namespace Description

/-- The anchors of a figure are those of the anchored tokens in document order, and no others: a
token stands in the slot of its signal, which counts the blank lanes before it, at the cycle of its
own column and at half the height of its lane, where its column starts if that has a finite width. Every
anchored token has a column. -/
theorem render_registers_tokens {description : Description Quantity}
    {options : Option (Options Quantity)} {g : Diagram Quantity}
    (hParsed : ∀ document, description = .parsed document → ∀ s ∈ document.signals, 1 ≤ s.period)
    (h : (description.render options).outcome = .ok g) :
    ∃ d l, (description.load options).outcome = .ok d ∧ g.layout = some l ∧
      List.Forall₂ l.Registers (((Item.slottedAll 0 d.items).zip l.signals).flatMap fun lane =>
        l.anchorsOf lane.1.1 lane.1.2 lane.2.y) l.anchors.anchors ∧
      l.options = d.options ∧
      l.signals.map PlacedSignal.slot = (Item.slottedAll 0 d.items).map Prod.snd ∧
      (∀ s ∈ l.signals,
        (Item.topsAll d.options (l.schemaY + d.options.schemaTop) d.items)[s.slot]? = some s.y) ∧
      ∀ s ∈ d.signals, lex s.wave s.node s.name none = .ok s.tokens ∧
        ∀ t ∈ s.tokens, t.anchor ≠ none → t.index * s.period < l.grid.total := by
  rw [render, Logged.outcome_bind] at h
  obtain ⟨d, hLoad, h⟩ := bind_eq_ok_iff.mp h
  obtain ⟨items, l, _, hItems, hComputed, _, _, hg⟩ := Document.of_render h
  have hLayout : (d.layout d.options).outcome = .ok l :=
    Document.layout_eq_ok_iff.mpr ⟨items, hItems, hComputed⟩
  obtain ⟨_, _, _, _, hParts⟩ := Layout.assembles_of_ofItems (Layout.of_compute hComputed)
  obtain ⟨hAnchors, hTokens⟩ := Layout.anchors_of_layout (periods_of_load hParsed hLoad) hLayout
  have hDeclared : Item.mapAll Compiled.signal items = d.items :=
    Document.items_of_compile hItems
  have hSlots : l.signals.map PlacedSignal.slot = (Item.slottedAll 0 d.items).map Prod.snd := by
    rw [Layout.slots_of_compute hComputed, ← hDeclared, Item.slottedAll_mapAll, List.map_map]
    rfl
  exact ⟨d, l, hLoad, by rw [hg], hAnchors, hParts.options, hSlots, Layout.tops_of_layout hLayout,
    hTokens⟩

end Description

end Doubles

namespace Description

/-- Two lanes with a blank one between them, and a group around the first. -/
def staggered : Document Quantity where
  items := [
    .group (some "bus") [
      .signal { name := "req", wave := "01", node := .names [none, some "a"], phase := .known (.whole 0) },
      .spacer],
    .signal {
      name := "ack", wave := "0.1", node := .names [none, none, some "b"], phase := .known (.whole 0) }]
  edges := []
  options := Options.default
  head := none
  foot := none

/-- The second anchor is in the third lane, as the blank one counts. -/
theorem render_registers_tokens_staggered :
    ∃ g l, ((parsed staggered).render none).outcome = .ok g ∧ g.layout = some l ∧
      (l.anchors.anchors.map fun a => (a.name, a.signal, a.slot, a.cycle)) =
        [("a", "req", 0, 1), ("b", "ack", 2, 2)] := by
  have hPeriods : ∀ document, parsed staggered = .parsed document →
      ∀ s ∈ document.signals, 1 ≤ s.period := by
    rintro _ ⟨⟩ s hs
    rw [Document.signals, Item.signals_eq_leavesAll] at hs
    simp only [staggered, Item.leavesAll, Item.leaves, List.append_nil, List.cons_append,
      List.nil_append, List.mem_cons, List.not_mem_nil, or_false] at hs
    rcases hs with rfl | rfl <;> exact le_rfl
  obtain ⟨g, hg⟩ : Succeeds ((parsed staggered).render none).outcome := by decide +kernel
  obtain ⟨d, l, hLoad, hLayout, hAnchors, _, hSlots, _⟩ := render_registers_tokens hPeriods hg
  obtain rfl : staggered = d := Except.ok.inj hLoad
  refine ⟨g, l, hg, hLayout, ?_⟩
  have hReq : lex "01" (.names [none, some "a"]) "req" none =
      .ok [⟨0, '0', .low, .low, none, 0, none, none⟩,
        ⟨1, '1', .high, .high, some .low, 0, none, some "a"⟩] := by
    have hNames : NodeSpec.toNames (.names [none, some "a"]) = [none, some "a"] := rfl
    rw [lex]
    simp only [NodeSpec.align, hNames]
    cbv
  have hAck : lex "0.1" (.names [none, none, some "b"]) "ack" none =
      .ok [⟨0, '0', .low, .low, none, 0, none, none⟩,
        ⟨1, '.', .again, .low, some .low, 0, none, none⟩,
        ⟨2, '1', .high, .high, some .low, 0, none, some "b"⟩] := by
    have hNames : NodeSpec.toNames (.names [none, none, some "b"]) = [none, none, some "b"] := rfl
    rw [lex]
    simp only [NodeSpec.align, hNames]
    cbv
  obtain ⟨p, placed, hSignals, _, hRest⟩ := List.map_eq_cons_iff.mp hSlots
  obtain ⟨q, _, rfl, _, hNone⟩ := List.map_eq_cons_iff.mp hRest
  obtain rfl := List.map_eq_nil_iff.mp hNone
  have hSame : l.anchors.anchors.map (fun a => (a.name, a.signal, a.slot, a.cycle)) = (((Item.slottedAll
      0 staggered.items).zip l.signals).flatMap fun lane => l.anchorsOf lane.1.1 lane.1.2 lane.2.y).map
        fun a => (a.name, a.signal, a.slot, a.cycle) := by
    refine (List.forall₂_eq_eq_eq ▸ List.rel_map (fun place a h => ?_) hAnchors).symm
    rw [h.same]
  rw [hSame, hSignals]
  simp [staggered, Item.slottedAll, Item.slotted, Item.lanes, Item.lanesAll, Layout.anchorsOf,
    Signal.tokens, hReq, hAck, Except.toOption]

/-- A document whose only column is wider than any number. -/
def overflowing : Value := .mapping [
  ("signal", .list [.mapping [("name", .text "a"), ("wave", .text "0"), ("node", .text "a")]]),
  ("config", .mapping [("cycle_width", .number (.real 1e308)), ("hscale", .number (.whole 10))])]

/-- The start of a column without end is no number, and so not its offset. -/
theorem render_misplaces_overflowing :
    ∃ (g : Diagram Quantity) (l : Layout Quantity) (a : Anchor Quantity),
      ((raw overflowing).render none).outcome = .ok g ∧ g.layout = some l ∧ a ∈ l.anchors.anchors ∧
        a.cycle = 0 ∧ a.x ≠ l.schemaX + l.grid.offset 0 := by
  have hFound : (((raw overflowing : Description Quantity).render none).outcome.toOption.any fun g =>
      g.layout.any fun l => l.anchors.anchors.any fun a => a.cycle = 0 && a.x != a.x &&
        l.schemaX + l.grid.offset 0 == l.schemaX + l.grid.offset 0) = true := by
    decide +kernel
  cases hRender : ((raw overflowing : Description Quantity).render none).outcome with
  | error e => simp [hRender, Except.toOption] at hFound
  | ok g =>
      cases hLayout : g.layout with
      | none => simp [hRender, hLayout, Except.toOption] at hFound
      | some l =>
          simp only [hRender, hLayout, Except.toOption, Option.any_some, List.any_eq_true,
            Bool.and_eq_true, decide_eq_true_eq] at hFound
          obtain ⟨a, ha, ⟨hCycle, hPlace⟩, hStart⟩ := hFound
          refine ⟨g, l, a, rfl, hLayout, ha, hCycle, fun hSame => ?_⟩
          rw [hSame, bne, hStart] at hPlace
          cases hPlace

end Description
end TimingDiagram
