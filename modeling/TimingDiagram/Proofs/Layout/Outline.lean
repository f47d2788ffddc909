import TimingDiagram.Proofs.Document.Outline
import TimingDiagram.Proofs.Figure.Rendering
import TimingDiagram.Proofs.Number.Checked

/-! The placement of groups. What is placed is the outline of the document, whatever groups are
nested, empty or without signals; and a group reaches from the top of its first lane to the bottom
of its last one. -/
namespace TimingDiagram

namespace Item

variable {α K : Type} [Add K]

mutual

/-- Where the lane after an item starts, when its own first lane would start at `y`. -/
def past (o : Options K) (y : K) : Item α → K
  | signal _ => y + o.waveHeight + o.lineSpacing
  | spacer => y + o.waveHeight + o.lineSpacing
  | group _ members =>
    if lanesAll members = 0 then y else pastAll o (y + o.groupMargin) members + o.groupMargin

def pastAll (o : Options K) (y : K) : List (Item α) → K
  | [] => y
  | item :: rest => pastAll o (item.past o y) rest

end

mutual

/-- The tops of the lanes of an item. -/
def tops (o : Options K) (y : K) : Item α → List K
  | signal _ => [y]
  | spacer => [y]
  | group _ members => topsAll o (y + o.groupMargin) members

def topsAll (o : Options K) (y : K) : List (Item α) → List K
  | [] => []
  | item :: rest => item.tops o y ++ topsAll o (item.past o y) rest

end

mutual

theorem length_tops (o : Options K) (y : K) (item : Item α) :
    (item.tops o y).length = item.lanes := by
  cases item with
  | signal s => rfl
  | spacer => rfl
  | group label members => rw [tops, lanes, length_topsAll o _ members]

theorem length_topsAll (o : Options K) (y : K) (items : List (Item α)) :
    (topsAll o y items).length = lanesAll items := by
  cases items with
  | nil => rfl
  | cons item items =>
      rw [topsAll, lanesAll, List.length_append, length_tops o y item, length_topsAll o _ items]

end

variable {β : Type}

mutual

theorem past_map (f : α → β) (o : Options K) (y : K) (item : Item α) :
    (item.map f).past o y = item.past o y := by
  cases item with
  | signal s => rfl
  | spacer => rfl
  | group label members => rw [map, past, past, lanesAll_mapAll, pastAll_mapAll f o _ members]

theorem pastAll_mapAll (f : α → β) (o : Options K) (y : K) (items : List (Item α)) :
    pastAll o y (mapAll f items) = pastAll o y items := by
  cases items with
  | nil => rfl
  | cons item items => rw [mapAll, pastAll, pastAll, past_map f o y item, pastAll_mapAll f o _ items]

end

mutual

theorem tops_map (f : α → β) (o : Options K) (y : K) (item : Item α) :
    (item.map f).tops o y = item.tops o y := by
  cases item with
  | signal s => rfl
  | spacer => rfl
  | group label members => rw [map, tops, tops, topsAll_mapAll f o _ members]

/-- The tops of the lanes do not depend on what the signals are. -/
theorem topsAll_mapAll (f : α → β) (o : Options K) (y : K) (items : List (Item α)) :
    topsAll o y (mapAll f items) = topsAll o y items := by
  cases items with
  | nil => rfl
  | cons item items =>
      rw [mapAll, topsAll, topsAll, tops_map f o y item, past_map, topsAll_mapAll f o _ items]

end

end Item

variable {K : Type}

/-- Whether a span reaches from the top of its first lane to the bottom of its last one. -/
structure LaneSpan.Fits [Add K] (span : LaneSpan K) (o : Options K) (tops : List K) : Prop where
  top : tops[span.firstSlot]? = some span.top
  bottom : ∃ y, tops[span.lastSlot]? = some y ∧ span.bottom = y + o.waveHeight

/-- The slots from the first lane of a group to its last one. -/
def LaneSpan.slots (span : LaneSpan K) : List Nat :=
  List.range' span.firstSlot (span.lastSlot + 1 - span.firstSlot)

def PlacedGroup.outlined (g : PlacedGroup K) : Outlined := .group g.label g.depth g.lanes.slots

namespace Placed

def outlined : Placed K → Outlined
  | group g => g.outlined
  | signal s => .signal s.name s.depth s.slot

def group? : Placed K → Option (PlacedGroup K)
  | group g => some g
  | signal _ => none

end Placed

/-- What a block holds of some items: their outline in both orders, each group and signal where its
lanes are. -/
structure Block.Outlines [Add K] (b : Block K) (o : Options K) (tops : List K)
    (pre post : List Outlined) : Prop where
  order : b.order.map Placed.outlined = pre
  groups : b.groups.map PlacedGroup.outlined = post
  same : b.groups.Perm (b.order.filterMap Placed.group?)
  fits : ∀ g ∈ b.groups, g.lanes.Fits o tops
  signals : ∀ s ∈ b.order.filterMap Placed.signal?, tops[s.slot]? = some s.y

/-- Whether the lanes of a block are so many, from a first one on. -/
structure Block.Spans [Add K] (b : Block K) (o : Options K) (tops : List K) (first count : Nat) :
    Prop where
  empty : count = 0 → b.lanes = none
  span : count ≠ 0 → ∃ span, b.lanes = some span ∧ span.firstSlot = first ∧
    span.lastSlot + 1 = first + count ∧ span.Fits o tops

namespace Block

variable [Add K] {a b : Block K} {o : Options K} {tops : List K}
  {pre post morePre morePost : List Outlined} {first count more : Nat}

theorem outlines_empty (o : Options K) (tops : List K) : (empty : Block K).Outlines o tops [] [] :=
  ⟨rfl, rfl, .nil, nofun, nofun⟩

theorem Outlines.append (ha : a.Outlines o tops pre post)
    (hb : b.Outlines o tops morePre morePost) :
    (a.append b).Outlines o tops (pre ++ morePre) (post ++ morePost) where
  order := by rw [Block.append, List.map_append, ha.order, hb.order]
  groups := by rw [Block.append, List.map_append, ha.groups, hb.groups]
  same := by
    rw [Block.append, List.filterMap_append]
    exact ha.same.append hb.same
  fits := List.forall_mem_append.mpr ⟨ha.fits, hb.fits⟩
  signals := by
    rw [Block.append, List.filterMap_append]
    exact List.forall_mem_append.mpr ⟨ha.signals, hb.signals⟩

theorem Spans.append (ha : a.Spans o tops first count) (hb : b.Spans o tops (first + count) more) :
    (a.append b).Spans o tops first (count + more) := by
  by_cases hCount : count = 0
  · have hLanes : (a.append b).lanes = b.lanes := by
      rw [Block.append, ha.empty hCount]
      rfl
    rw [hCount, Nat.add_zero] at hb
    rw [hCount, Nat.zero_add]
    exact ⟨fun hMore => hLanes.trans (hb.empty hMore), fun hMore => hLanes.symm ▸ hb.span hMore⟩
  · obtain ⟨left, hLeft, hFirst, hLast, hFits⟩ := ha.span hCount
    refine ⟨fun hNone => absurd hNone (by omega), fun _ => ?_⟩
    by_cases hMore : more = 0
    · refine ⟨left, ?_, hFirst, by omega, hFits⟩
      rw [Block.append, hLeft, hb.empty hMore]
      rfl
    · obtain ⟨right, hRight, _, hEnd, hRightFits⟩ := hb.span hMore
      refine ⟨⟨left.firstSlot, right.lastSlot, left.top, right.bottom⟩, ?_, hFirst, ?_, ?_⟩
      · rw [Block.append, hLeft, hRight]
        rfl
      · simp only
        omega
      · exact ⟨hFits.top, hRightFits.bottom⟩

end Block

/-- The first of some values that stand from a place on. -/
theorem getElem?_of_starts {x : K} {xs : List K} {n : Nat} (h : [x] <+: xs.drop n) :
    xs[n]? = some x := by
  obtain ⟨rest, hRest⟩ := h
  have hFirst := congrArg (fun l : List K => l[0]?) hRest
  simpa using hFirst.symm

/-- Values that stand from a place on stand there one part after the other. -/
theorem starts_of_append {first more xs : List K} {n : Nat} (h : first ++ more <+: xs.drop n) :
    first <+: xs.drop n ∧ more <+: xs.drop (n + first.length) := by
  refine ⟨(List.prefix_append first more).trans h, ?_⟩
  obtain ⟨rest, hRest⟩ := h
  refine ⟨rest, ?_⟩
  rw [← List.drop_drop, ← hRest, List.append_assoc, List.drop_left]

namespace Frame

variable [Add K] {f : Frame K} {s : Compiled K} {depth : Nat} {c past : Cursor K} {block : Block K}
  {label : Option String} {tops : List K}

/-- What placing some lanes gives: the state after them, and the outline of what holds them. -/
structure Lays (f : Frame K) (tops : List K) (c past : Cursor K) (block : Block K) (count : Nat)
    (y : K) (pre post : List Outlined) : Prop where
  slot : past.slot = c.slot + count
  y : past.y = y
  outlines : block.Outlines f.options tops pre post
  spans : block.Spans f.options tops c.slot count

theorem lays_empty (f : Frame K) (tops : List K) (c : Cursor K) :
    f.Lays tops c c .empty 0 c.y [] [] :=
  ⟨rfl, rfl, Block.outlines_empty _ _, fun _ => rfl, fun h => absurd rfl h⟩

theorem Lays.append {next : Cursor K} {first others : Block K} {count more : Nat} {y z : K}
    {pre post morePre morePost : List Outlined} (h : f.Lays tops c next first count y pre post)
    (hRest : f.Lays tops next past others more z morePre morePost) :
    f.Lays tops c past (first.append others) (count + more) z (pre ++ morePre)
      (post ++ morePost) where
  slot := by rw [hRest.slot, h.slot, Nat.add_assoc]
  y := hRest.y
  outlines := h.outlines.append hRest.outlines
  spans := h.spans.append (h.slot ▸ hRest.spans)

section Lane

variable [Scalar K] [CheckedScalar K]

theorem of_pastLane (h : f.pastLane c = .ok past) :
    past.slot = c.slot + 1 ∧ past.y = c.y + f.options.waveHeight + f.options.lineSpacing := by
  rw [pastLane] at h
  obtain ⟨y, hy, h⟩ := bind_eq_ok_iff.mp h
  cases h
  exact ⟨rfl, CheckedScalar.eq_of_checked hy⟩

/-- A lane, blank or not, takes the next slot. -/
theorem lays_lane {pre post : List Outlined} (hPast : f.pastLane c = .ok past)
    (hTop : tops[c.slot]? = some c.y) (hLanes : block.lanes = some (f.nextLane c))
    (hOutlines : block.Outlines f.options tops pre post) :
    f.Lays tops c past block 1 (c.y + f.options.waveHeight + f.options.lineSpacing) pre post := by
  obtain ⟨hSlot, hy⟩ := of_pastLane hPast
  refine ⟨hSlot, hy, hOutlines, nofun, fun _ => ⟨f.nextLane c, hLanes, rfl, rfl, hTop, ?_⟩⟩
  exact ⟨c.y, hTop, rfl⟩

end Lane

variable [Sub K] [Mul K] [Div K] [Scalar K]

theorem of_placeGroup {lanes : LaneSpan K} {placed : PlacedGroup K}
    (h : f.placeGroup label depth lanes = .ok placed) :
    placed.label = label ∧ placed.depth = depth ∧ placed.lanes = lanes := by
  rw [placeGroup] at h
  obtain ⟨_, _, h⟩ := bind_eq_ok_iff.mp h
  obtain ⟨_, _, h⟩ := bind_eq_ok_iff.mp h
  obtain ⟨_, _, h⟩ := bind_eq_ok_iff.mp h
  obtain ⟨_, _, h⟩ := bind_eq_ok_iff.mp h
  obtain ⟨_, _, h⟩ := bind_eq_ok_iff.mp h
  cases h
  exact ⟨rfl, rfl, rfl⟩

/-- A group with lanes has an entry before those of its members in one order, and after them in
the other. -/
theorem Lays.bracketed {inner : Block K} {count : Nat} {y : K} {pre post : List Outlined}
    (h : f.Lays tops c past inner count y pre post) (hCount : count ≠ 0)
    (hBlock : f.bracketed label depth inner = .ok block) :
    f.Lays tops c past block count y (.group label depth (List.range' c.slot count) :: pre)
      (post ++ [.group label depth (List.range' c.slot count)]) := by
  obtain ⟨span, hSpan, hFirst, hLast, hFits⟩ := h.spans.span hCount
  rcases of_bracketed hBlock with ⟨hNone, _⟩ | ⟨lanes, placed, hLanes, hPlaced, rfl⟩
  · rw [hSpan] at hNone
    cases hNone
  · obtain rfl : span = lanes := Option.some.inj (hSpan.symm.trans hLanes)
    obtain ⟨hLabel, hDepth, hOwn⟩ := of_placeGroup hPlaced
    have hOutlined : placed.outlined = .group label depth (List.range' c.slot count) := by
      rw [PlacedGroup.outlined, hLabel, hDepth, hOwn, LaneSpan.slots, hFirst]
      congr 2
      omega
    refine ⟨h.slot, h.y, ⟨?_, ?_, ?_, ?_, h.outlines.signals⟩, h.spans.empty, h.spans.span⟩
    · exact congrArg₂ List.cons hOutlined h.outlines.order
    · rw [List.map_append, h.outlines.groups, List.map_singleton, hOutlined]
    · exact (List.perm_append_singleton placed inner.groups).trans (h.outlines.same.cons placed)
    · exact List.forall_mem_append.mpr
        ⟨h.outlines.fits, List.forall_mem_singleton.mpr (hOwn ▸ hFits)⟩

variable [LT K] [LE K] [DecidableLT K] [DecidableLE K] [CheckedScalar K]

set_option linter.unusedSectionVars false in
mutual

theorem lays_of_placeItem {depth : Nat} {item : Item (Compiled K)} {c past : Cursor K}
    {block : Block K} (h : f.placeItem depth item c = .ok (block, past))
    (hTops : (item.map Compiled.signal).tops f.options c.y <+: tops.drop c.slot) :
    f.Lays tops c past block item.lanes ((item.map Compiled.signal).past f.options c.y)
      ((item.map Compiled.signal).preorder depth c.slot)
      ((item.map Compiled.signal).postorder depth c.slot) := by
  cases item with
  | signal s =>
      obtain ⟨hPast, placed, anchors, hPlaced, rfl⟩ := of_placeItem_signal h
      have hSignal := of_placeSignal hPlaced
      have hTop := getElem?_of_starts hTops
      refine lays_lane hPast hTop rfl ⟨?_, rfl, .nil, nofun, ?_⟩
      · rw [List.map_singleton, Placed.outlined, hSignal.name, hSignal.slot, hSignal.depth]
        rfl
      · refine List.forall_mem_singleton.mpr ?_
        rw [hSignal.slot, hSignal.top, hTop]
  | spacer =>
      obtain ⟨hPast, rfl⟩ := of_placeItem_spacer h
      exact lays_lane hPast (getElem?_of_starts hTops) rfl ⟨rfl, rfl, .nil, nofun, nofun⟩
  | group label members =>
      rw [Item.map, Item.tops] at hTops
      rw [Item.map, Item.past, Item.preorder, Item.postorder, Item.slotsAll_eq_range',
        Item.lanesAll_mapAll]
      rcases of_placeItem_group h with
        ⟨hLanes, rfl, rfl⟩ | ⟨hLanes, _, inner, inside, _, hTop, hInner, hBottom, hBlock, rfl⟩
      · rw [if_pos hLanes, if_pos hLanes, if_pos hLanes, Item.lanes, hLanes]
        exact lays_empty f tops _
      · obtain rfl := CheckedScalar.eq_of_checked hTop
        have hLays := (lays_of_placeItems hInner hTops).bracketed hLanes hBlock
        rw [if_neg hLanes, if_neg hLanes, if_neg hLanes]
        refine ⟨hLays.slot, ?_, hLays.outlines, hLays.spans⟩
        rw [CheckedScalar.eq_of_checked hBottom, hLays.y]

/-- Items are placed in the order of their lanes, each lane where it belongs. -/
theorem lays_of_placeItems {depth : Nat} {items : List (Item (Compiled K))} {c past : Cursor K}
    {block : Block K} (h : f.placeItems depth items c = .ok (block, past))
    (hTops : Item.topsAll f.options c.y (Item.mapAll Compiled.signal items) <+:
      tops.drop c.slot) :
    f.Lays tops c past block (Item.lanesAll items)
      (Item.pastAll f.options c.y (Item.mapAll Compiled.signal items))
      (Item.preorderAll depth c.slot (Item.mapAll Compiled.signal items))
      (Item.postorderAll depth c.slot (Item.mapAll Compiled.signal items)) := by
  cases items with
  | nil =>
      cases h
      exact lays_empty f tops c
  | cons item rest =>
      obtain ⟨first, next, others, hFirst, hOthers, rfl⟩ := of_placeItems_cons h
      rw [Item.mapAll, Item.topsAll] at hTops
      obtain ⟨hItem, hRest⟩ := starts_of_append hTops
      have hLays := lays_of_placeItem hFirst hItem
      rw [Item.length_tops, Item.lanes_map, ← hLays.slot, ← hLays.y] at hRest
      have hMore := lays_of_placeItems hOthers hRest
      rw [hLays.slot, hLays.y] at hMore
      rw [Item.mapAll, Item.lanesAll, Item.pastAll, Item.preorderAll, Item.postorderAll,
        Item.lanes_map]
      exact hLays.append hMore

end

end Frame

namespace Layout

variable [Add K]

/-- A layout that follows the outline of some items: its brackets and signals in document order are
the entries in the order in which they open, and its brackets alone those of the groups in the
order in which they close. Each bracket reaches from the top of its first lane to the bottom of its
last one, and each signal stands in its lane; two brackets are one inside the other or share no
lane. -/
structure Follows (l : Layout K) (o : Options K) (items : List (Item (Signal K))) : Prop where
  order : l.order.map Placed.outlined = Item.preorderAll 0 0 items
  groups : l.groups.map PlacedGroup.outlined = Item.postorderAll 0 0 items
  same : l.groups.Perm (l.order.filterMap Placed.group?)
  fits : ∀ g ∈ l.groups, g.lanes.Fits o (Item.topsAll o (l.schemaY + o.schemaTop) items)
  tops : ∀ s ∈ l.signals, (Item.topsAll o (l.schemaY + o.schemaTop) items)[s.slot]? = some s.y
  precedes : (l.order.map Placed.outlined).Pairwise Outlined.Precedes
  nested : ∀ a ∈ l.groups, ∀ b ∈ l.groups, a.outlined.NestedOrDisjoint b.outlined
  increasing : (l.signals.map PlacedSignal.slot).Pairwise (· < ·)

omit [Add K] in
theorem outlined_mem_of_perm {order : List (Placed K)} {groups : List (PlacedGroup K)}
    (h : groups.Perm (order.filterMap Placed.group?)) :
    ∀ g ∈ groups, g.outlined ∈ order.map Placed.outlined := by
  intro g hg
  obtain ⟨p, hp, hGroup⟩ := List.mem_filterMap.mp (h.mem_iff.mp hg)
  cases p with
  | group own =>
      cases hGroup
      exact List.mem_map_of_mem hp
  | signal s => cases hGroup

omit [Add K] in
theorem increasing_of_precedes {order : List (Placed K)}
    (h : (order.map Placed.outlined).Pairwise Outlined.Precedes) :
    ((order.filterMap Placed.signal?).map PlacedSignal.slot).Pairwise (· < ·) := by
  rw [List.pairwise_map] at h ⊢
  refine List.pairwise_filterMap.mpr (h.imp fun {a b} hab s hs t ht => ?_)
  cases a with
  | group g => cases hs
  | signal s =>
      cases b with
      | group g => cases ht
      | signal t =>
          cases hs
          cases ht
          cases hab with
          | above hEarlier =>
              exact hEarlier _ (List.mem_singleton_self _) _ (List.mem_singleton_self _)

variable [Sub K] [Mul K] [Div K] [LT K] [LE K] [DecidableLT K] [DecidableLE K] [Max K] [Min K]
  [Scalar K] {o : Options K}

omit [Sub K] [Div K] [LE K] [DecidableLE K] in
theorem options_of_frameOf {items : List (Item (Compiled K))} {frame : Frame K}
    (h : frameOf o items = .ok frame) : frame.options = o := by
  rw [frameOf] at h
  obtain ⟨_, _, h⟩ := bind_eq_ok_iff.mp h
  obtain ⟨_, _, h⟩ := bind_eq_ok_iff.mp h
  obtain ⟨_, _, h⟩ := bind_eq_ok_iff.mp h
  obtain ⟨_, _, h⟩ := bind_eq_ok_iff.mp h
  cases h
  rfl

variable [CheckedScalar K] {d : Document K} {l : Layout K}

/-- A layout holds a block that outlines its document. -/
theorem outlines_of_layout (h : (d.layout o).outcome = .ok l) :
    ∃ block : Block K, l.order = block.order ∧ l.groups = block.groups ∧
      block.Outlines o (Item.topsAll o (l.schemaY + o.schemaTop) d.items)
        (Item.preorderAll 0 0 d.items) (Item.postorderAll 0 0 d.items) := by
  obtain ⟨items, hItems, hLayout⟩ := Document.layout_eq_ok_iff.mp h
  obtain ⟨frame, start, block, past, hFrame, hStart, hBlock, _, hOrder, hGroups⟩ :=
    of_ofItems (of_compute hLayout)
  have hDeclared : Item.mapAll Compiled.signal items = d.items :=
    Document.items_of_compile hItems
  obtain rfl := options_of_frameOf hFrame
  obtain rfl := CheckedScalar.eq_of_checked hStart
  have hLays := Frame.lays_of_placeItems hBlock (List.prefix_refl _)
  rw [hDeclared] at hLays
  exact ⟨block, hOrder, hGroups, hLays.outlines⟩

/-- The top of a placed signal is that of the lane in its slot. -/
theorem tops_of_layout (h : (d.layout o).outcome = .ok l) :
    ∀ s ∈ l.signals, (Item.topsAll o (l.schemaY + o.schemaTop) d.items)[s.slot]? = some s.y := by
  obtain ⟨block, hOrder, _, hOutlines⟩ := outlines_of_layout h
  rw [signals, hOrder]
  exact hOutlines.signals

/-- The slots of the signals increase in document order. -/
theorem slots_of_layout (h : (d.layout o).outcome = .ok l) :
    (l.signals.map PlacedSignal.slot).Pairwise (· < ·) := by
  obtain ⟨block, hOrder, _, hOutlines⟩ := outlines_of_layout h
  rw [signals, hOrder]
  exact increasing_of_precedes (hOutlines.order ▸ Item.pairwise_preorderAll 0 0 d.items)

/-- A layout follows the outline of its document. -/
theorem layout_follows_outline (h : (d.layout o).outcome = .ok l) : l.Follows o d.items := by
  obtain ⟨block, hOrder, hGroups, hPre, hPost, hSame, hFits, _⟩ := outlines_of_layout h
  rw [← hOrder] at hPre hSame
  rw [← hGroups] at hPost hSame hFits
  have hPrecedes : (l.order.map Placed.outlined).Pairwise Outlined.Precedes :=
    hPre ▸ Item.pairwise_preorderAll 0 0 d.items
  have hNested := Outlined.nestedOrDisjoint_of_pairwise hPrecedes
  have hMem := outlined_mem_of_perm hSame
  exact ⟨hPre, hPost, hSame, hFits, tops_of_layout h, hPrecedes,
    fun a ha b hb => hNested _ (hMem a ha) _ (hMem b hb), slots_of_layout h⟩

end Layout

namespace Description

/-- The two lanes, the first in a group with a blank lane in a group of its own, and an empty group
before the second. -/
noncomputable def grouped : Document ℝ where
  items := [
    .group (some "bus") [
      .signal { name := "req", wave := "01", node := .names [none, some "a"], phase := 0 },
      .group none [.spacer]],
    .group (some "none") [],
    .signal { name := "ack", wave := "0.1", node := .names [none, none, some "b"], phase := 0 }]
  edges := []
  options := Options.default
  head := none
  foot := none

theorem signals_grouped : grouped.signals = (handshake "b").signals := by
  rw [signals_handshake, Document.signals, Item.signals_eq_leavesAll]
  rfl

/-- The groups do not matter to whether the lanes can be drawn. -/
theorem render_grouped : grouped.Valid ∧ Succeeds grouped.render.outcome := by
  have hSound : grouped.Sound := by
    obtain ⟨hSignals, hNames⟩ : (handshake "b").Sound := handshake_sound (by decide) (by decide)
    rw [Document.declaredAnchors, ← signals_grouped] at hNames
    exact ⟨signals_grouped ▸ hSignals, hNames⟩
  have hValid : grouped.Valid :=
    ⟨signals_grouped ▸ (handshake_promised "b" _ rfl).periods, Options.accepted_default⟩
  exact ⟨hValid, Document.render_of_sound hValid hSound⟩

theorem layout_grouped : ∃ l, (grouped.layout grouped.options).outcome = .ok l :=
  Document.succeeds_layout render_grouped.2

/-- The empty group has no place, and the others have their lanes, the blank one included. -/
theorem layout_follows_outline_grouped :
    ∃ l, (grouped.layout grouped.options).outcome = .ok l ∧
      l.order.map Placed.outlined = [.group (some "bus") 0 [0, 1], .signal "req" 1 0,
        .group none 1 [1], .signal "ack" 0 2] ∧
      l.groups.map PlacedGroup.outlined = [.group none 1 [1], .group (some "bus") 0 [0, 1]] := by
  obtain ⟨l, hPlaced⟩ := layout_grouped
  have hFollows := Layout.layout_follows_outline hPlaced
  exact ⟨l, hPlaced, hFollows.order, hFollows.groups⟩

end Description
end TimingDiagram
