import TimingDiagram.Layout.Basic
import TimingDiagram.Proofs.Document.Walk
import TimingDiagram.Proofs.Edge.Registry

/-! What the placement of lanes gives, in any arithmetic. Each function of it is described once by
what its success says; from that, a block holds the segments and the anchors of its signals in
document order, and a layout fails only where something cannot be computed or an anchor is
taken. -/
namespace TimingDiagram

variable {K : Type}

/-- The anchors that the segments of a compiled signal carry, each with its place. -/
def Compiled.declared (c : Compiled K) : List (String × Place) :=
  c.segments.filterMap fun seg => seg.anchor.map fun name =>
    (name, ⟨c.signal.name, some seg.start⟩)

/-- A block that places some compiled signals in their order. -/
structure Block.Places (b : Block K) (signals : List (Compiled K)) : Prop where
  anchors : b.anchors.map Anchor.declared = signals.flatMap Compiled.declared
  segments : ((b.order.filterMap Placed.signal?).map fun s =>
    s.segments.map PlacedSegment.segment) = signals.map Compiled.segments

namespace Block

theorem places_empty : (empty : Block K).Places [] := ⟨rfl, rfl⟩

theorem Places.append {a b : Block K} {first others : List (Compiled K)} (ha : a.Places first)
    (hb : b.Places others) : (a.append b).Places (first ++ others) := by
  constructor
  · rw [Block.append, List.map_append, List.flatMap_append, ha.anchors, hb.anchors]
  · rw [Block.append, List.filterMap_append, List.map_append, List.map_append, ha.segments,
      hb.segments]

end Block

namespace Layout

/-- A layout holds the segments of the compiled signals in their order. -/
def Holds (l : Layout K) (signals : List (Compiled K)) : Prop :=
  (l.signals.map fun s => s.segments.map PlacedSegment.segment) = signals.map Compiled.segments

theorem Holds.exists_segments {l : Layout K} {signals : List (Compiled K)} (h : l.Holds signals)
    {s : PlacedSignal K} (hs : s ∈ l.signals) :
    ∃ c ∈ signals, c.segments = s.segments.map PlacedSegment.segment := by
  have hMem := List.mem_map_of_mem (f := fun s : PlacedSignal K =>
    s.segments.map PlacedSegment.segment) hs
  rw [Holds] at h
  rw [h] at hMem
  exact List.mem_map.mp hMem

end Layout

namespace Item

mutual

theorem length_leaves_le {α : Type} (item : Item α) : item.leaves.length ≤ item.lanes := by
  cases item with
  | signal s => simp [leaves, lanes]
  | spacer => simp [leaves, lanes]
  | group label members => simpa [leaves, lanes] using length_leavesAll_le members

/-- There are no more signals than lanes. -/
theorem length_leavesAll_le {α : Type} (items : List (Item α)) :
    (leavesAll items).length ≤ lanesAll items := by
  cases items with
  | nil => simp [leavesAll, lanesAll]
  | cons item items =>
      have hItem := length_leaves_le item
      have hItems := length_leavesAll_le items
      simp only [leavesAll, lanesAll, List.length_append]
      omega

end

theorem leavesAll_eq_nil {α : Type} {items : List (Item α)} (h : lanesAll items = 0) :
    leavesAll items = [] :=
  List.length_eq_zero_iff.mp (Nat.le_zero.mp (h ▸ length_leavesAll_le items))

end Item

variable [Add K] [Sub K] [Mul K] [Div K] [LT K] [LE K] [DecidableLT K] [DecidableLE K] [Scalar K]

namespace Frame

variable {f : Frame K} {s : Compiled K} {depth : Nat} {c past : Cursor K} {block : Block K}
  {label : Option String} {members : List (Item (Compiled K))}

/-- Where a cycle of the time axis lies in the figure. -/
def xOf (f : Frame K) (cycle : Int) : Except Fault K := do
  Scalar.checked (f.schemaX + (← f.grid.xAt (Scalar.whole cycle)))

/-- A segment is placed between its first and its last cycle, with its turns and its breaks. -/
structure PlacesSegment (f : Frame K) (s : Compiled K) (seg : Segment) (placed : PlacedSegment K) :
    Prop where
  segment : placed.segment = seg
  start : f.xOf seg.start = .ok placed.x₀
  stop : f.xOf seg.stop = .ok placed.x₁
  pulses : f.placePulses s seg = .ok placed.pulses
  gapMarks : seg.gaps.mapM (f.placeGapMark s) = .ok placed.gapMarks

theorem of_placeSegment {seg : Segment} {placed : PlacedSegment K}
    (h : f.placeSegment s seg = .ok placed) : f.PlacesSegment s seg placed := by
  rw [placeSegment] at h
  obtain ⟨start, hStart, h⟩ := bind_eq_ok_iff.mp h
  obtain ⟨x₀, hx₀, h⟩ := bind_eq_ok_iff.mp h
  obtain ⟨stop, hStop, h⟩ := bind_eq_ok_iff.mp h
  obtain ⟨x₁, hx₁, h⟩ := bind_eq_ok_iff.mp h
  obtain ⟨pulses, hPulses, h⟩ := bind_eq_ok_iff.mp h
  obtain ⟨marks, hMarks, h⟩ := bind_eq_ok_iff.mp h
  cases h
  exact ⟨rfl, by rw [xOf, hStart, ok_bind, hx₀], by rw [xOf, hStop, ok_bind, hx₁], hPulses, hMarks⟩

theorem segments_of_mapM {segments : List Segment} {placed : List (PlacedSegment K)}
    (h : segments.mapM (f.placeSegment s) = .ok placed) :
    placed.map PlacedSegment.segment = segments := by
  have hPlaced := forall₂_of_mapM h
  clear h
  induction hPlaced with
  | nil => rfl
  | cons hFirst _ ih => rw [List.map_cons, (of_placeSegment hFirst).segment, ih]

/-- A signal is placed with what it shows: its name, its lane, its segments and its anchors. -/
structure PlacesSignal (s : Compiled K) (slot depth : Nat) (top : K) (placed : PlacedSignal K)
    (anchors : List (Anchor K)) : Prop where
  name : placed.name = s.signal.name
  slot : placed.slot = slot
  depth : placed.depth = depth
  top : placed.y = top
  segments : placed.segments.map PlacedSegment.segment = s.segments
  anchors : anchors.map Anchor.declared = s.declared

theorem of_placeSignal {slot : Nat} {top : K} {placed : PlacedSignal K}
    {anchors : List (Anchor K)} (h : f.placeSignal s slot depth top = .ok (placed, anchors)) :
    PlacesSignal s slot depth top placed anchors := by
  rw [placeSignal] at h
  obtain ⟨segments, hPlaced, h⟩ := bind_eq_ok_iff.mp h
  obtain ⟨_, _, h⟩ := bind_eq_ok_iff.mp h
  obtain ⟨middle, _, h⟩ := bind_eq_ok_iff.mp h
  cases h
  have hSegments := segments_of_mapM hPlaced
  refine ⟨rfl, rfl, rfl, rfl, hSegments, ?_⟩
  rw [Compiled.declared, ← hSegments, List.map_filterMap, List.filterMap_map]
  apply List.filterMap_congr
  intro placed _
  simp only [anchorOf, Option.map_map, Function.comp_apply]
  rfl

omit [LT K] [LE K] [DecidableLT K] [DecidableLE K] in
theorem of_bracketed {inner : Block K} (h : f.bracketed label depth inner = .ok block) :
    (inner.lanes = none ∧ block = inner) ∨
      ∃ lanes placed, inner.lanes = some lanes ∧ f.placeGroup label depth lanes = .ok placed ∧
        block = { inner with
          order := .group placed :: inner.order
          groups := inner.groups ++ [placed] } := by
  rw [bracketed] at h
  split at h
  · rename_i hNone
    cases h
    exact .inl ⟨hNone, rfl⟩
  · rename_i lanes hLanes
    obtain ⟨placed, hPlaced, h⟩ := bind_eq_ok_iff.mp h
    cases h
    exact .inr ⟨lanes, placed, hLanes, hPlaced, rfl⟩

theorem of_placeItem_signal (h : f.placeItem depth (.signal s) c = .ok (block, past)) :
    f.pastLane c = .ok past ∧
      ∃ placed anchors, f.placeSignal s c.slot depth c.y = .ok (placed, anchors) ∧
        block = ⟨[.signal placed], [], anchors, some (f.nextLane c)⟩ := by
  rw [placeItem] at h
  obtain ⟨_, hPast, h⟩ := bind_eq_ok_iff.mp h
  obtain ⟨⟨placed, anchors⟩, hPlaced, h⟩ := bind_eq_ok_iff.mp h
  cases h
  exact ⟨hPast, placed, anchors, hPlaced, rfl⟩

theorem of_placeItem_spacer (h : f.placeItem depth .spacer c = .ok (block, past)) :
    f.pastLane c = .ok past ∧ block = ⟨[], [], [], some (f.nextLane c)⟩ := by
  rw [placeItem] at h
  obtain ⟨_, hPast, h⟩ := bind_eq_ok_iff.mp h
  cases h
  exact ⟨hPast, rfl⟩

theorem of_placeItem_group (h : f.placeItem depth (.group label members) c = .ok (block, past)) :
    (Item.lanesAll members = 0 ∧ block = .empty ∧ past = c) ∨
      (Item.lanesAll members ≠ 0 ∧ ∃ top inner inside bottom,
        Scalar.checked (c.y + f.options.groupMargin) = .ok top ∧
        f.placeItems (depth + 1) members { c with y := top } = .ok (inner, inside) ∧
        Scalar.checked (inside.y + f.options.groupMargin) = .ok bottom ∧
        f.bracketed label depth inner = .ok block ∧
        past = { inside with y := bottom, extent := inside.extent + f.options.groupMargin }) := by
  rw [placeItem] at h
  split_ifs at h with hLanes
  · cases h
    exact .inl ⟨hLanes, rfl, rfl⟩
  · obtain ⟨top, hTop, h⟩ := bind_eq_ok_iff.mp h
    obtain ⟨⟨inner, inside⟩, hInner, h⟩ := bind_eq_ok_iff.mp h
    obtain ⟨bottom, hBottom, h⟩ := bind_eq_ok_iff.mp h
    obtain ⟨outer, hOuter, h⟩ := bind_eq_ok_iff.mp h
    cases h
    exact .inr ⟨hLanes, top, inner, inside, bottom, hTop, hInner, hBottom, hOuter, rfl⟩

theorem of_placeItems_cons {item : Item (Compiled K)} {rest : List (Item (Compiled K))}
    (h : f.placeItems depth (item :: rest) c = .ok (block, past)) :
    ∃ first next others, f.placeItem depth item c = .ok (first, next) ∧
      f.placeItems depth rest next = .ok (others, past) ∧ block = first.append others := by
  rw [placeItems] at h
  obtain ⟨⟨first, next⟩, hFirst, h⟩ := bind_eq_ok_iff.mp h
  obtain ⟨⟨others, _⟩, hOthers, h⟩ := bind_eq_ok_iff.mp h
  cases h
  exact ⟨first, next, others, hFirst, hOthers, rfl⟩

theorem placeItem_of_lanes_eq_zero (f : Frame K) {item : Item (Compiled K)} (h : item.lanes = 0)
    (depth : Nat) (c : Cursor K) : f.placeItem depth item c = .ok (.empty, c) := by
  cases item with
  | signal s => cases h
  | spacer => cases h
  | group label members =>
      have hMembers : Item.lanesAll members = 0 := h
      rw [placeItem, if_pos hMembers]
      rfl

mutual

theorem places_of_placeItem {depth : Nat} {item : Item (Compiled K)} {c past : Cursor K}
    {block : Block K} (h : f.placeItem depth item c = .ok (block, past)) :
    block.Places item.leaves := by
  cases item with
  | signal s =>
      obtain ⟨_, placed, anchors, hPlaced, rfl⟩ := of_placeItem_signal h
      have hSignal := of_placeSignal hPlaced
      constructor
      · simpa [Item.leaves] using hSignal.anchors
      · simpa [Item.leaves, Placed.signal?] using hSignal.segments
  | spacer =>
      obtain ⟨_, rfl⟩ := of_placeItem_spacer h
      exact ⟨rfl, rfl⟩
  | group label members =>
      rcases of_placeItem_group h with
        ⟨hLanes, rfl, _⟩ | ⟨_, top, inner, inside, bottom, _, hInner, _, hBlock, _⟩
      · rw [Item.leaves, Item.leavesAll_eq_nil hLanes]
        exact Block.places_empty
      · have hPlaces := places_of_placeItems hInner
        -- A bracket adds neither signals nor anchors.
        rcases of_bracketed hBlock with ⟨_, rfl⟩ | ⟨_, placed, _, _, rfl⟩
        · exact hPlaces
        · exact ⟨hPlaces.anchors, hPlaces.segments⟩

/-- Items are placed with all their signals. -/
theorem places_of_placeItems {depth : Nat} {items : List (Item (Compiled K))}
    {c past : Cursor K} {block : Block K} (h : f.placeItems depth items c = .ok (block, past)) :
    block.Places (Item.leavesAll items) := by
  cases items with
  | nil =>
      cases h
      exact Block.places_empty
  | cons item rest =>
      obtain ⟨first, next, others, hFirst, hOthers, rfl⟩ := of_placeItems_cons h
      exact (places_of_placeItem hFirst).append (places_of_placeItems hOthers)

end

end Frame

namespace Layout

variable [Max K] [Min K] {o : Options K} {items : List (Item (Compiled K))}
  {head foot : Option Caption} {l : Layout K}

/-- What a layout is made of: the block that its items are placed in, from the top of the lanes on,
and what is computed around it. -/
structure Assembles (o : Options K) (items : List (Item (Compiled K))) (head foot : Option Caption)
    (l : Layout K) (frame : Frame K) (start : K) (block : Block K) (past : Cursor K) : Prop where
  framed : frameOf o items = .ok frame
  started : Scalar.checked (l.schemaY + o.schemaTop) = .ok start
  placed : frame.placeItems 0 items ⟨start, start, 0⟩ = .ok (block, past)
  anchors : Registry.ofList block.anchors = .ok l.anchors
  order : l.order = block.order
  groups : l.groups = block.groups
  options : l.options = o
  grid : l.grid = frame.grid
  schemaX : l.schemaX = frame.schemaX
  schemaY : l.schemaY = o.paddingTop + Caption.height head o
  schemaHeight : Scalar.checked (heightOf o start past) = .ok l.schemaHeight
  width : Scalar.checked (l.schemaX + l.grid.width + o.paddingRight) = .ok l.width
  height : Scalar.checked (l.schemaY + l.schemaHeight + Caption.height foot o + o.paddingBottom) =
    .ok l.height
  above : head.mapM (fun note => note.place o.paddingTop l.schemaX l.grid o true) = .ok l.head
  below : foot.mapM (fun note => note.place (l.schemaY + l.schemaHeight) l.schemaX l.grid o false) =
    .ok l.foot

theorem assembles_of_ofItems (h : ofItems o items head foot = .ok l) :
    ∃ frame start block past, Assembles o items head foot l frame start block past := by
  rw [ofItems] at h
  obtain ⟨frame, hFrame, h⟩ := bind_eq_ok_iff.mp h
  obtain ⟨start, hStart, h⟩ := bind_eq_ok_iff.mp h
  obtain ⟨⟨block, past⟩, hBlock, h⟩ := bind_eq_ok_iff.mp h
  obtain ⟨schemaHeight, hSchema, h⟩ := bind_eq_ok_iff.mp h
  obtain ⟨width, hWidth, h⟩ := bind_eq_ok_iff.mp h
  obtain ⟨height, hHeight, h⟩ := bind_eq_ok_iff.mp h
  obtain ⟨anchors, hAnchors, h⟩ := bind_eq_ok_iff.mp h
  obtain ⟨placedHead, hHead, h⟩ := bind_eq_ok_iff.mp h
  obtain ⟨placedFoot, hFoot, h⟩ := bind_eq_ok_iff.mp h
  cases h
  exact ⟨frame, start, block, past, {
    framed := liftM_eq_ok_iff.mp hFrame
    started := liftM_eq_ok_iff.mp hStart
    placed := liftM_eq_ok_iff.mp hBlock
    anchors := hAnchors
    order := rfl
    groups := rfl
    options := rfl
    grid := rfl
    schemaX := rfl
    schemaY := rfl
    schemaHeight := liftM_eq_ok_iff.mp hSchema
    width := liftM_eq_ok_iff.mp hWidth
    height := liftM_eq_ok_iff.mp hHeight
    above := liftM_eq_ok_iff.mp hHead
    below := liftM_eq_ok_iff.mp hFoot }⟩

/-- A layout is that of a placed block, with its anchors registered. -/
theorem of_ofItems (h : ofItems o items head foot = .ok l) :
    ∃ frame start block past, frameOf o items = .ok frame ∧
      Scalar.checked (l.schemaY + o.schemaTop) = .ok start ∧
      frame.placeItems 0 items ⟨start, start, 0⟩ = .ok (block, past) ∧
      Registry.ofList block.anchors = .ok l.anchors ∧ l.order = block.order ∧
      l.groups = block.groups := by
  obtain ⟨frame, start, block, past, hParts⟩ := assembles_of_ofItems h
  exact ⟨frame, start, block, past, hParts.framed, hParts.started, hParts.placed, hParts.anchors,
    hParts.order, hParts.groups⟩

/-- A layout fails for an anchor that is taken, or where something cannot be computed. -/
theorem failsOnlyBy_ofItems (o : Options K) (items : List (Item (Compiled K)))
    (head foot : Option Caption) :
    FailsOnlyBy (NameClash ((Item.leavesAll items).flatMap Compiled.declared))
      (ofItems o items head foot) := by
  rw [ofItems]
  refine (failsOnlyBy_liftM _).bind fun frame _ => (failsOnlyBy_liftM _).bind fun start _ =>
    (failsOnlyBy_liftM _).bind fun ⟨block, past⟩ hBlock => (failsOnlyBy_liftM _).bind fun _ _ =>
    (failsOnlyBy_liftM _).bind fun _ _ => (failsOnlyBy_liftM _).bind fun _ _ =>
    FailsOnlyBy.bind (fun e he => .inr ?_) fun _ _ => (failsOnlyBy_liftM _).bind fun _ _ =>
    (failsOnlyBy_liftM _).bind fun _ _ => failsOnlyBy_ok _
  have hPlaces := Frame.places_of_placeItems (liftM_eq_ok_iff.mp hBlock)
  exact hPlaces.anchors ▸ Registry.ofList_iff.2 e |>.mp he

end Layout
end TimingDiagram
