import TimingDiagram.Proofs.Document.Rows
import TimingDiagram.Proofs.Layout.Outline

/-! Heights in exact arithmetic. The top of a lane is told by the rows above it, and the height of
all lanes by the rows of the document: a margin at the end of a group counts once, be it before a
lane or after the last one. -/
namespace TimingDiagram

namespace Row

variable {K : Type} [Add K]

/-- Where the lanes go on below some rows that start at `y`. -/
def past (o : Options K) (y : K) : List Row → K
  | [] => y
  | .lane :: rest => past o (y + o.waveHeight + o.lineSpacing) rest
  | .margin :: rest => past o (y + o.groupMargin) rest

/-- The tops of the lanes among some rows that start at `y`. -/
def tops (o : Options K) (y : K) : List Row → List K
  | [] => []
  | .lane :: rest => y :: tops o (y + o.waveHeight + o.lineSpacing) rest
  | .margin :: rest => tops o (y + o.groupMargin) rest

theorem past_append (o : Options K) (y : K) (rows more : List Row) :
    past o y (rows ++ more) = past o (past o y rows) more := by
  induction rows generalizing y with
  | nil => rfl
  | cons row rows ih => cases row <;> exact ih _

theorem tops_append (o : Options K) (y : K) (rows more : List Row) :
    tops o y (rows ++ more) = tops o y rows ++ tops o (past o y rows) more := by
  induction rows generalizing y with
  | nil => rfl
  | cons row rows ih =>
      cases row with
      | lane => exact congrArg (y :: ·) (ih _)
      | margin => exact ih _

theorem length_tops (o : Options K) (y : K) (rows : List Row) :
    (tops o y rows).length = rows.count .lane := by
  induction rows generalizing y with
  | nil => rfl
  | cons row rows ih =>
      cases row with
      | lane => rw [tops, List.length_cons, ih, List.count_cons_self]
      | margin => rw [tops, ih, List.count_cons_of_ne (by decide)]

/-- A lane starts where the rows before it end. -/
theorem getElem?_tops (o : Options K) (y : K) (before after : List Row) :
    (tops o y (before ++ .lane :: after))[before.count .lane]? = some (past o y before) := by
  rw [tops_append, ← length_tops o y before, List.getElem?_append_right le_rfl, Nat.sub_self, tops]
  rfl

/-- Every lane among some rows has rows before it. -/
theorem exists_split {rows : List Row} {slot : Nat} (h : slot < rows.count .lane) :
    ∃ before after, rows = before ++ .lane :: after ∧ before.count .lane = slot := by
  induction rows generalizing slot with
  | nil => cases h
  | cons row rows ih =>
      cases row with
      | margin =>
          rw [List.count_cons_of_ne (by decide)] at h
          obtain ⟨before, after, rfl, hCount⟩ := ih h
          refine ⟨.margin :: before, after, rfl, ?_⟩
          rw [List.count_cons_of_ne (by decide), hCount]
      | lane =>
          rw [List.count_cons_self] at h
          cases slot with
          | zero => exact ⟨[], rows, rfl, rfl⟩
          | succ slot =>
              obtain ⟨before, after, rfl, hCount⟩ := ih (Nat.lt_of_succ_lt_succ h)
              exact ⟨.lane :: before, after, rfl, by rw [List.count_cons_self, hCount]⟩

end Row

namespace Item

variable {α K : Type} [Add K]

mutual

theorem past_eq (o : Options K) (y : K) (item : Item α) :
    item.past o y = Row.past o y item.rowsOf := by
  cases item with
  | signal s => rfl
  | spacer => rfl
  | group label members =>
      rw [past, rowsOf]
      split_ifs with hLanes
      · rfl
      · rw [pastAll_eq o _ members, List.cons_append, Row.past, Row.past_append]
        rfl

theorem pastAll_eq (o : Options K) (y : K) (items : List (Item α)) :
    pastAll o y items = Row.past o y (rowsAll items) := by
  cases items with
  | nil => rfl
  | cons item items =>
      rw [pastAll, rowsAll, Row.past_append, past_eq o y item, pastAll_eq o _ items]

end

mutual

theorem tops_eq (o : Options K) (y : K) (item : Item α) :
    item.tops o y = Row.tops o y item.rowsOf := by
  cases item with
  | signal s => rfl
  | spacer => rfl
  | group label members =>
      rw [tops, rowsOf]
      split_ifs with hLanes
      · rw [topsAll_eq o _ members, (rows_and_brackets_of_lanesAll_eq_zero hLanes).1]
        rfl
      · rw [topsAll_eq o _ members, List.cons_append, Row.tops, Row.tops_append]
        exact (List.append_nil _).symm

/-- The lanes of some items start where their rows say. -/
theorem topsAll_eq (o : Options K) (y : K) (items : List (Item α)) :
    topsAll o y items = Row.tops o y (rowsAll items) := by
  cases items with
  | nil => rfl
  | cons item items =>
      rw [topsAll, rowsAll, Row.tops_append, tops_eq o y item, topsAll_eq o _ items, past_eq o y item]

end

end Item

/-- Rows add up, in whatever order they come. -/
theorem Row.past_eq_add {K : Type} [Field K] (o : Options K) (y : K) (rows : List Row) :
    past o y rows = y + rows.count .lane * (o.waveHeight + o.lineSpacing) +
      rows.count .margin * o.groupMargin := by
  induction rows generalizing y with
  | nil => simp [past]
  | cons row rows ih =>
      cases row with
      | lane =>
          rw [past, ih, List.count_cons_self, List.count_cons_of_ne (by decide)]
          push_cast
          ring
      | margin =>
          rw [past, ih, List.count_cons_self, List.count_cons_of_ne (by decide)]
          push_cast
          ring

variable {K : Type} [Field K] [LinearOrder K] [IsStrictOrderedRing K] [FloorRing K] [Scalar K]
  [ExactScalar K]

namespace Frame

variable {f : Frame K} {c past : Cursor K} {block : Block K}

/-- Whether the lanes so far end a line spacing above the next lane. -/
def Settled (f : Frame K) (c : Cursor K) : Prop := c.extent + f.options.lineSpacing = c.y

theorem settled_of_pastLane (h : f.pastLane c = .ok past) : f.Settled past := by
  simp only [pastLane, ExactScalar.checked_eq, ok_bind] at h
  cases h
  rfl

set_option linter.unusedSectionVars false in
mutual

theorem settled_of_placeItem {depth : Nat} {item : Item (Compiled K)} {c past : Cursor K}
    {block : Block K} (h : f.placeItem depth item c = .ok (block, past)) :
    (item.lanes = 0 → past = c) ∧ (item.lanes ≠ 0 → f.Settled past) := by
  cases item with
  | signal s => exact ⟨nofun, fun _ => settled_of_pastLane (of_placeItem_signal h).1⟩
  | spacer => exact ⟨nofun, fun _ => settled_of_pastLane (of_placeItem_spacer h).1⟩
  | group label members =>
      rw [Item.lanes]
      rcases of_placeItem_group h with
        ⟨hLanes, _, rfl⟩ | ⟨hLanes, _, _, inside, bottom, _, hInner, hBottom, _, rfl⟩
      · exact ⟨fun _ => rfl, fun hSome => absurd hLanes hSome⟩
      · refine ⟨fun hNone => absurd hNone hLanes, fun _ => ?_⟩
        have hInside : f.Settled inside := (settled_of_placeItems hInner).2 hLanes
        rw [ExactScalar.checked_eq] at hBottom
        -- The margin moves the end of the lanes and the next lane alike.
        rw [Settled] at hInside ⊢
        rw [← Except.ok.inj hBottom, ← hInside, add_right_comm]

/-- After some lanes, the next one is a line spacing below them, whatever groups have ended in
between. -/
theorem settled_of_placeItems {depth : Nat} {items : List (Item (Compiled K))}
    {c past : Cursor K} {block : Block K} (h : f.placeItems depth items c = .ok (block, past)) :
    (Item.lanesAll items = 0 → past = c) ∧ (Item.lanesAll items ≠ 0 → f.Settled past) := by
  cases items with
  | nil =>
      cases h
      exact ⟨fun _ => rfl, fun hSome => absurd rfl hSome⟩
  | cons item rest =>
      obtain ⟨first, next, others, hFirst, hOthers, rfl⟩ := of_placeItems_cons h
      obtain ⟨hSame, hSettled⟩ := settled_of_placeItem hFirst
      obtain ⟨hRestSame, hRestSettled⟩ := settled_of_placeItems hOthers
      rw [Item.lanesAll]
      constructor
      · intro hNone
        rw [hRestSame (by omega), hSame (by omega)]
      · intro hSome
        by_cases hRest : Item.lanesAll rest = 0
        · rw [hRestSame hRest]
          exact hSettled (by omega)
        · exact hRestSettled hRest

end

end Frame

namespace Layout

variable {d : Document K} {o : Options K} {l : Layout K}

/-- The state after the lanes of a layout, and the parts of its height. -/
theorem heights_of_layout (h : (d.layout o).outcome = .ok l) :
    let start := l.schemaY + o.schemaTop
    ∃ past : Cursor K, past.slot = Item.lanesAll d.items ∧
      past.y = Row.past o start (Item.rows d.items) ∧
      (Item.lanesAll d.items ≠ 0 → past.extent + o.lineSpacing = past.y) ∧
      l.schemaHeight = heightOf o start past ∧
      l.height = l.schemaY + l.schemaHeight + Caption.height d.foot o + o.paddingBottom := by
  obtain ⟨items, hItems, hLayout⟩ := Document.layout_eq_ok_iff.mp h
  obtain ⟨frame, start, block, past, hParts⟩ := assembles_of_ofItems (of_compute hLayout)
  have hDeclared : Item.mapAll Compiled.signal items = d.items :=
    Document.items_of_compile hItems
  have hLanes : Item.lanesAll items = Item.lanesAll d.items := by
    rw [← hDeclared, Item.lanesAll_mapAll]
  obtain rfl := options_of_frameOf hParts.framed
  obtain rfl := CheckedScalar.eq_of_checked hParts.started
  have hLays := Frame.lays_of_placeItems hParts.placed (List.prefix_refl _)
  have hSlot : past.slot = Item.lanesAll items := hLays.slot.trans (Nat.zero_add _)
  refine ⟨past, hSlot.trans hLanes, ?_, fun hSome => ?_, ?_, ?_⟩
  · rw [hLays.y, hDeclared, Item.pastAll_eq, Item.rows_eq_rowsAll]
  · exact (Frame.settled_of_placeItems hParts.placed).2 (hLanes ▸ hSome)
  · exact CheckedScalar.eq_of_checked hParts.schemaHeight
  · exact CheckedScalar.eq_of_checked hParts.height

/-- Lanes stand one below the other, with a margin at both ends of every group that holds a lane:
the top of a lane is told by the lanes and the margins before it, and the height of the lanes by
all of them. A signal stands in its lane, and a group reaches from the top of its first lane to the
bottom of its last one. -/
theorem layout_stacks_rows (h : (d.layout o).outcome = .ok l) :
    let lanes := Item.lanesAll d.items
    let groups := (Item.brackets d.items).length
    (∀ slot < lanes, ∃ before after, Item.rows d.items = before ++ .lane :: after ∧
        before.count .lane = slot ∧
        let top := l.schemaY + o.schemaTop + slot * (o.waveHeight + o.lineSpacing) +
          before.count .margin * o.groupMargin
        (∀ s ∈ l.signals, s.slot = slot → s.y = top) ∧
        ∀ g ∈ l.groups, (g.lanes.firstSlot = slot → g.lanes.top = top) ∧
          (g.lanes.lastSlot = slot → g.lanes.bottom = top + o.waveHeight)) ∧
      (∀ s ∈ l.signals, s.slot < lanes) ∧
      (∀ g ∈ l.groups, g.lanes.firstSlot < lanes ∧ g.lanes.lastSlot < lanes) ∧
      l.schemaHeight = (if lanes = 0 then 0 else o.schemaTop + o.schemaBottom +
        lanes * o.waveHeight + (lanes - 1) * o.lineSpacing + 2 * groups * o.groupMargin) ∧
      l.height = l.schemaY + l.schemaHeight + Caption.height d.foot o + o.paddingBottom := by
  intro lanes groups
  obtain ⟨past, hSlot, hPast, hSettled, hSchema, hHeight⟩ := heights_of_layout h
  obtain ⟨hLanes, hMargins⟩ := Item.count_rowsAll d.items
  rw [← Item.brackets_eq_bracketsAll] at hMargins
  rw [Item.rows_eq_rowsAll] at hPast
  obtain ⟨block, _, hGroups, hOutlines⟩ := outlines_of_layout h
  have hSpans := hOutlines.fits
  rw [← hGroups] at hSpans
  have hTops : Item.topsAll o (l.schemaY + o.schemaTop) d.items =
      Row.tops o (l.schemaY + o.schemaTop) (Item.rowsAll d.items) := Item.topsAll_eq _ _ _
  have hBefore {i : Nat} {y : K}
      (hAt : (Item.topsAll o (l.schemaY + o.schemaTop) d.items)[i]? = some y) : i < lanes := by
    have hLength := (List.getElem?_eq_some_iff.mp hAt).1
    rwa [Item.length_topsAll] at hLength
  refine ⟨fun slot hBelow => ?_, fun s hs => ?_, fun g hg => ?_, ?_, hHeight⟩
  · obtain ⟨before, after, hRows, hCount⟩ := Row.exists_split (hBelow.trans_eq hLanes.symm)
    have hTop := Row.getElem?_tops o (l.schemaY + o.schemaTop) before after
    rw [← hRows, hCount, Row.past_eq_add, hCount, ← hTops] at hTop
    refine ⟨before, after, (Item.rows_eq_rowsAll _).trans hRows, hCount, fun s hs hOwn => ?_,
      fun g hg => ⟨fun hFirst => ?_, fun hLast => ?_⟩⟩
    · have hAt := tops_of_layout h s hs
      rw [hOwn, hTop] at hAt
      exact (Option.some.inj hAt).symm
    · have hAt := (hSpans g hg).top
      rw [hFirst, hTop] at hAt
      exact (Option.some.inj hAt).symm
    · obtain ⟨y, hAt, hBottom⟩ := (hSpans g hg).bottom
      rw [hLast, hTop] at hAt
      rw [hBottom, Option.some.inj hAt]
  · exact hBefore (tops_of_layout h s hs)
  · obtain ⟨y, hAt, _⟩ := (hSpans g hg).bottom
    exact ⟨hBefore (hSpans g hg).top, hBefore hAt⟩
  · rw [hSchema, heightOf, hSlot]
    split_ifs with hNone
    · exact Scalar.zero_eq
    · have hEnd : past.extent = past.y - o.lineSpacing := eq_sub_of_add_eq (hSettled hNone)
      rw [hEnd, hPast, Row.past_eq_add, hLanes, hMargins]
      push_cast
      ring

end Layout

namespace Description

/-- Of the three lanes two are in a group and the second in one more, so that the last one stands
below four margins. -/
theorem layout_stacks_rows_grouped :
    ∃ l, (grouped.layout grouped.options).outcome = .ok l ∧
      Item.rows grouped.items = [.margin, .lane, .margin, .lane, .margin, .margin, .lane] ∧
      l.schemaHeight = 152 := by
  obtain ⟨l, hPlaced⟩ := layout_grouped
  obtain ⟨_, _, _, hHeight, _⟩ := Layout.layout_stacks_rows hPlaced
  have hGroups : Item.brackets grouped.items = [some "bus", none] := by
    rw [Item.brackets_eq_bracketsAll]
    rfl
  have hLanes : Item.lanesAll grouped.items = 3 := rfl
  refine ⟨l, hPlaced, by rw [Item.rows_eq_rowsAll]; rfl, ?_⟩
  rw [hHeight, hGroups, hLanes]
  simp only [grouped, Options.default, ExactScalar.fraction_eq]
  norm_num

end Description
end TimingDiagram
