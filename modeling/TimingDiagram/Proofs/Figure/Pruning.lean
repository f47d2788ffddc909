import TimingDiagram.Proofs.Document.Pruning
import TimingDiagram.Proofs.Layout.Outline

/-! Groups without lanes leave no trace. The placement passes over them without moving its cursor,
and nothing else of a figure looks at a group that has not been placed. -/
namespace TimingDiagram

variable {K : Type} [Add K] [Sub K] [Mul K] [Div K] [LT K] [LE K] [DecidableLT K] [DecidableLE K]
  [Scalar K]

namespace Block

omit [Add K] [Sub K] [Mul K] [Div K] [LT K] [LE K] [DecidableLT K] [DecidableLE K] [Scalar K] in
theorem empty_append (b : Block K) : empty.append b = b := rfl

end Block

namespace Frame

variable (f : Frame K)

mutual

theorem placeItem_pruned (depth : Nat) (item : Item (Compiled K)) (c : Cursor K) :
    f.placeItem depth item.pruned c = f.placeItem depth item c := by
  cases item with
  | signal s => rfl
  | spacer => rfl
  | group label members =>
      simp only [Item.pruned, placeItem, Item.lanesAll_prunedAll,
        placeItems_prunedAll (depth + 1) members]

/-- Groups without lanes take no room and add nothing to a block. -/
theorem placeItems_prunedAll (depth : Nat) (items : List (Item (Compiled K))) (c : Cursor K) :
    f.placeItems depth (Item.prunedAll items) c = f.placeItems depth items c := by
  cases items with
  | nil => rfl
  | cons item rest =>
      rw [Item.prunedAll, placeItems]
      split_ifs with hLanes
      · rw [placeItems_prunedAll depth rest, f.placeItem_of_lanes_eq_zero hLanes, ok_bind]
        simp only [Block.empty_append]
        cases f.placeItems depth rest c <;> rfl
      · simp only [placeItems, placeItem_pruned depth item, placeItems_prunedAll depth rest]

end

end Frame

namespace Layout

variable [Max K] [Min K] (o : Options K) (items : List (Item (Compiled K)))
  (head foot : Option Caption)

omit [Sub K] [Div K] [LE K] [DecidableLE K] in
theorem frameOf_prunedAll : frameOf o (Item.prunedAll items) = frameOf o items := by
  simp only [frameOf, Item.signals_prunedAll, Item.laneDepth_prunedAll]

theorem compute_prunedAll :
    compute o (Item.prunedAll items) head foot = compute o items head foot := by
  simp only [compute, ofItems, frameOf_prunedAll, Frame.placeItems_prunedAll]

end Layout

namespace Document

variable [Max K] [Min K] [BEq K]

/-- The groups that hold a signal or a blank lane at some depth are all that is seen of the groups:
without the others a document renders to the same figure, or fails alike, and the same is told. -/
theorem render_pruned (d : Document K) :
    d.pruned.render = d.render ∧ Item.brackets d.pruned.items = Item.brackets d.items ∧
      ∀ label members depth, (.enter label members, depth) ∈ Item.walk d.pruned.items →
        Item.lanesAll members ≠ 0 := by
  refine ⟨?_, ?_, fun label members depth hStep => ?_⟩
  · have hLayout : d.pruned.layout = d.layout := by
      funext o
      simp only [layout, compile, pruned, Item.traverseAll_prunedAll, bind_map_left,
        Layout.compute_prunedAll]
    rw [render, render, hLayout]
    rfl
  · rw [Item.brackets_eq_bracketsAll, Item.brackets_eq_bracketsAll]
    exact Item.bracketsAll_prunedAll d.items
  · rw [Item.walk_eq_stepsAll] at hStep
    exact Item.lanes_ne_zero_of_mem_stepsAll_prunedAll hStep

end Document

namespace Description

/-- One group holds nothing and is gone; the one that holds just a blank lane is still there. -/
theorem render_pruned_grouped :
    grouped.pruned.items.length + 1 = grouped.items.length ∧
      (∃ g, grouped.pruned.render.outcome = .ok g ∧ grouped.render.outcome = .ok g) ∧
      Item.lanesAll [(.spacer : Item (Signal ℝ))] ≠ 0 := by
  obtain ⟨hRender, _, hLanes⟩ := Document.render_pruned grouped
  obtain ⟨g, hg⟩ := render_grouped.2
  refine ⟨rfl, ⟨g, hRender ▸ hg, hg⟩, hLanes none [.spacer] 1 ?_⟩
  rw [Item.walk_eq_stepsAll]
  exact .tail _ (.tail _ (.head _))

end Description
end TimingDiagram
