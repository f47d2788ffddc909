import TimingDiagram.Proofs.Layout.Block

/-! Placing the lanes in one loop over the walk, with the groups that are open on a stack. A group
keeps a place in the order when it is entered, its lanes grow with each lane inside it, and its
bracket takes the place when it is left. Over the steps of some items the loop adds what placing the
items gives, so over a whole walk it places what the recursion over the items does, or fails
alike. -/
namespace TimingDiagram

variable {K : Type}

/-- A group that has been entered and not left. -/
structure OpenBracket (K : Type) where
  label : Option String
  depth : Nat
  /-- The place of its bracket in the order; a group without lanes has none. -/
  position : Option Nat
  /-- The lanes met in it so far. -/
  lanes : Option (LaneSpan K)

/-- The state of the loop between two steps. -/
structure Placing (K : Type) where
  cursor : Cursor K
  /-- The open groups, inner ones before outer ones. -/
  opened : List (OpenBracket K)
  /-- What has been placed, with nothing yet where the bracket of an open group goes. -/
  order : List (Option (Placed K))
  signals : List (PlacedSignal K)
  groups : List (PlacedGroup K)
  anchors : List (Anchor K)

namespace LaneSpan

@[simp] theorem join_none (a : Option (LaneSpan K)) : join a none = a := by cases a <;> rfl

@[simp] theorem join_eq_none_iff {a b : Option (LaneSpan K)} :
    join a b = none ↔ a = none ∧ b = none := by
  cases a <;> cases b <;> simp [join]

theorem join_assoc (a b c : Option (LaneSpan K)) : join (join a b) c = join a (join b c) := by
  cases a <;> cases b <;> cases c <;> rfl

end LaneSpan

namespace OpenBracket

/-- An open group with more lanes. -/
def widen (g : OpenBracket K) (lanes : Option (LaneSpan K)) : OpenBracket K :=
  { g with lanes := LaneSpan.join g.lanes lanes }

@[simp] theorem widen_none (g : OpenBracket K) : g.widen none = g := by
  rw [widen, LaneSpan.join_none]

@[simp] theorem widen_widen (g : OpenBracket K) (a b : Option (LaneSpan K)) :
    (g.widen a).widen b = g.widen (LaneSpan.join a b) := by
  simp only [widen, LaneSpan.join_assoc]

end OpenBracket

namespace Placing

/-- The state before the first step. -/
def start (c : Cursor K) : Placing K := ⟨c, [], [], [], [], []⟩

/-- The state after a group with lanes has been entered, with a place kept for its bracket. -/
def enter (p : Placing K) (label : Option String) (depth : Nat) (top : K) : Placing K :=
  { p with
    cursor := { p.cursor with y := top }
    opened := ⟨label, depth, some p.order.length, none⟩ :: p.opened
    order := p.order ++ [none] }

@[simp] theorem cursor_enter (p : Placing K) (label : Option String) (depth : Nat) (top : K) :
    (p.enter label depth top).cursor = { p.cursor with y := top } := rfl

/-- The state after a block has been placed. -/
def grow (p : Placing K) (block : Block K) (past : Cursor K) : Placing K where
  cursor := past
  opened := p.opened.map (·.widen block.lanes)
  order := p.order ++ block.order.map some
  signals := p.signals ++ block.order.filterMap Placed.signal?
  groups := p.groups ++ block.groups
  anchors := p.anchors ++ block.anchors

theorem grow_empty (p : Placing K) : p.grow .empty p.cursor = p := by
  simp [grow, Block.empty]

theorem grow_grow (p : Placing K) (first others : Block K) (next past : Cursor K) :
    (p.grow first next).grow others past = p.grow (first.append others) past := by
  simp [grow, Block.append]

end Placing

variable [Add K] [Sub K] [Mul K] [Div K] [LT K] [LE K] [DecidableLT K] [DecidableLE K] [Scalar K]

namespace Frame

/-- One step of the loop. -/
def step (f : Frame K) (p : Placing K) : Event (Compiled K) × Nat → Except Fault (Placing K)
  | (.enter label members, depth) =>
    if Item.lanesAll members = 0 then
      return { p with opened := ⟨label, depth, none, none⟩ :: p.opened }
    else do
      return p.enter label depth (← Scalar.checked (p.cursor.y + f.options.groupMargin))
  | (.exit _, _) =>
    match p.opened with
    | [] => .error .outOfRange
    | group :: opened =>
      match group.lanes, group.position with
      | none, _ => return { p with opened := opened }
      | some _, none => .error .wrongKind
      | some lanes, some position => do
        let y ← Scalar.checked (p.cursor.y + f.options.groupMargin)
        let placed ← f.placeGroup group.label group.depth lanes
        return { p with
          cursor := { p.cursor with y := y, extent := p.cursor.extent + f.options.groupMargin }
          opened := opened
          order := p.order.set position (some (.group placed))
          groups := p.groups ++ [placed] }
  | (.lane content, depth) => do
    let past ← f.pastLane p.cursor
    let opened := p.opened.map (·.widen (some (f.nextLane p.cursor)))
    match content with
    | none => return { p with cursor := past, opened := opened }
    | some s => do
      let (placed, anchors) ← f.placeSignal s p.cursor.slot depth p.cursor.y
      return { p with
        cursor := past
        opened := opened
        order := p.order ++ [some (.signal placed)]
        signals := p.signals ++ [placed]
        anchors := p.anchors ++ anchors }

variable {f : Frame K}

mutual

theorem lanes_eq_none_of_placeItem {depth : Nat} {item : Item (Compiled K)} {c past : Cursor K}
    {block : Block K} (h : f.placeItem depth item c = .ok (block, past)) :
    block.lanes = none ↔ item.lanes = 0 := by
  cases item with
  | signal s =>
      obtain ⟨_, placed, anchors, _, rfl⟩ := of_placeItem_signal h
      simp [Item.lanes]
  | spacer =>
      obtain ⟨_, rfl⟩ := of_placeItem_spacer h
      simp [Item.lanes]
  | group label members =>
      rw [Item.lanes]
      rcases of_placeItem_group h with
        ⟨hLanes, rfl, _⟩ | ⟨_, top, inner, inside, bottom, _, hInner, _, hBlock, _⟩
      · exact iff_of_true rfl hLanes
      · rw [← lanes_eq_none_of_placeItems hInner]
        rcases of_bracketed hBlock with ⟨_, rfl⟩ | ⟨_, placed, _, _, rfl⟩ <;> rfl

/-- A block has lanes when there are lanes to place. -/
theorem lanes_eq_none_of_placeItems {depth : Nat} {items : List (Item (Compiled K))}
    {c past : Cursor K} {block : Block K} (h : f.placeItems depth items c = .ok (block, past)) :
    block.lanes = none ↔ Item.lanesAll items = 0 := by
  cases items with
  | nil =>
      cases h
      exact iff_of_true rfl rfl
  | cons item rest =>
      obtain ⟨first, next, others, hFirst, hOthers, rfl⟩ := of_placeItems_cons h
      rw [Block.append, LaneSpan.join_eq_none_iff, lanes_eq_none_of_placeItem hFirst,
        lanes_eq_none_of_placeItems hOthers, Item.lanesAll, Nat.add_eq_zero_iff]

end

theorem placeItems_of_lanesAll_eq_zero {items : List (Item (Compiled K))}
    (h : Item.lanesAll items = 0) (depth : Nat) (c : Cursor K) :
    f.placeItems depth items c = .ok (.empty, c) := by
  induction items with
  | nil => rfl
  | cons item rest ih =>
      obtain ⟨hItem, hRest⟩ := Nat.add_eq_zero_iff.mp h
      simp only [placeItems, f.placeItem_of_lanes_eq_zero hItem, ih hRest, ok_bind]
      rfl

/-- When a group is left its bracket takes the place that was kept for it. -/
theorem step_exit (p : Placing K) (label : Option String) (depth : Nat) (top : K) (inner : Block K)
    (inside : Cursor K) (hLanes : inner.lanes ≠ none) :
    f.step ((p.enter label depth top).grow inner inside) (.exit label, depth) =
      Scalar.checked (inside.y + f.options.groupMargin) >>= fun y =>
        (f.bracketed label depth inner).map fun outer =>
          p.grow outer { inside with y := y, extent := inside.extent + f.options.groupMargin } := by
  obtain ⟨lanes, hLanes⟩ := Option.ne_none_iff_exists'.mp hLanes
  simp only [step, Placing.enter, Placing.grow, List.map_cons, OpenBracket.widen, hLanes, LaneSpan.join,
    bracketed]
  cases Scalar.checked (inside.y + f.options.groupMargin) with
  | error cause => rfl
  | ok y =>
      cases f.placeGroup label depth lanes with
      | error cause => rfl
      | ok placed =>
          have hSignals : (Placed.group placed :: inner.order).filterMap Placed.signal? =
              inner.order.filterMap Placed.signal? := List.filterMap_cons_none rfl
          simp [Except.map, hSignals, pure, Except.pure]

mutual

theorem foldlM_steps (depth : Nat) (item : Item (Compiled K)) (p : Placing K) :
    (item.steps depth).foldlM f.step p =
      (f.placeItem depth item p.cursor).map fun placed => p.grow placed.1 placed.2 := by
  cases item with
  | signal s =>
      simp only [Item.steps, List.foldlM_cons, List.foldlM_nil, bind_pure, step, placeItem]
      cases f.pastLane p.cursor with
      | error cause => rfl
      | ok past =>
          simp only [ok_bind]
          cases f.placeSignal s p.cursor.slot depth p.cursor.y with
          | error cause => rfl
          | ok placed => simp [Placing.grow, Except.map, Placed.signal?, pure, Except.pure]
  | spacer =>
      simp only [Item.steps, List.foldlM_cons, List.foldlM_nil, bind_pure, step, placeItem]
      cases f.pastLane p.cursor with
      | error cause => rfl
      | ok past => simp [Placing.grow, Except.map, pure, Except.pure]
  | group label members =>
      simp only [Item.steps, List.cons_append, List.foldlM_cons, step, placeItem]
      by_cases hLanes : Item.lanesAll members = 0
      · -- The group is laid on the stack and taken off again, and nothing else happens.
        rw [if_pos hLanes, if_pos hLanes, pure_bind, List.foldlM_append,
          foldlM_stepsAll (depth + 1) members, placeItems_of_lanesAll_eq_zero hLanes]
        simp only [Except.map, ok_bind, List.foldlM_cons, List.foldlM_nil, bind_pure]
        rfl
      · rw [if_neg hLanes, if_neg hLanes]
        simp only [bind_assoc, pure_bind, List.foldlM_append, foldlM_stepsAll (depth + 1) members]
        cases Scalar.checked (p.cursor.y + f.options.groupMargin) with
        | error cause => rfl
        | ok top =>
            simp only [ok_bind, Placing.cursor_enter]
            cases hInner : f.placeItems (depth + 1) members { p.cursor with y := top } with
            | error cause => rfl
            | ok placed =>
                have hFound := mt (lanes_eq_none_of_placeItems hInner).mp hLanes
                simp only [Except.map, ok_bind, List.foldlM_cons, List.foldlM_nil, bind_pure]
                rw [step_exit p label depth top placed.1 placed.2 hFound]
                cases Scalar.checked (placed.2.y + f.options.groupMargin) with
                | error cause => rfl
                | ok y => cases f.bracketed label depth placed.1 <;> rfl

/-- Over the steps of some items the loop adds to its state what placing the items gives. -/
theorem foldlM_stepsAll (depth : Nat) (items : List (Item (Compiled K))) (p : Placing K) :
    (Item.stepsAll depth items).foldlM f.step p =
      (f.placeItems depth items p.cursor).map fun placed => p.grow placed.1 placed.2 := by
  cases items with
  | nil =>
      rw [Item.stepsAll, placeItems, Except.map, p.grow_empty]
      rfl
  | cons item rest =>
      rw [Item.stepsAll, List.foldlM_append, foldlM_steps depth item, placeItems]
      cases f.placeItem depth item p.cursor with
      | error cause => rfl
      | ok first =>
          simp only [Except.map, ok_bind]
          rw [foldlM_stepsAll depth rest]
          change (f.placeItems depth rest first.2).map _ = _
          cases f.placeItems depth rest first.2 with
          | error cause => rfl
          | ok others => exact congrArg Except.ok (p.grow_grow first.1 others.1 first.2 others.2)

end

/-- In one loop over the walk the lanes are placed as item by item, or the loop fails alike: every
bracket has taken its place in the order, and no group is left open. -/
theorem foldlM_walk (items : List (Item (Compiled K))) (c : Cursor K) :
    (Item.walk items).foldlM f.step (Placing.start c) =
      (f.placeItems 0 items c).map fun placed =>
        ⟨placed.2, [], placed.1.order.map some, placed.1.order.filterMap Placed.signal?,
          placed.1.groups, placed.1.anchors⟩ := by
  rw [Item.walk_eq_stepsAll, foldlM_stepsAll]
  rfl

end Frame
end TimingDiagram
