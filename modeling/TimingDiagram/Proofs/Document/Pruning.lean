import TimingDiagram.Document.Basic
import TimingDiagram.Proofs.Document.Rows

/-! Items without the groups that hold no lane at any depth. What is left of the walk is the same,
but for the steps into such groups and out of them, and a computation on every signal does not see
the difference. -/
namespace TimingDiagram
namespace Item

variable {α β γ : Type}

mutual

/-- The item without the groups in it that hold no lane. -/
def pruned : Item α → Item α
  | signal s => .signal s
  | spacer => .spacer
  | group label members => .group label (prunedAll members)

/-- Some items without the groups that hold no lane. -/
def prunedAll : List (Item α) → List (Item α)
  | [] => []
  | item :: rest => if item.lanes = 0 then prunedAll rest else item.pruned :: prunedAll rest

end

mutual

theorem lanes_pruned (item : Item α) : item.pruned.lanes = item.lanes := by
  cases item with
  | signal s => rfl
  | spacer => rfl
  | group label members => rw [pruned, lanes, lanes, lanesAll_prunedAll members]

theorem lanesAll_prunedAll (items : List (Item α)) : lanesAll (prunedAll items) = lanesAll items := by
  cases items with
  | nil => rfl
  | cons item items =>
      rw [prunedAll]
      split_ifs with hLanes
      · rw [lanesAll, hLanes, Nat.zero_add, lanesAll_prunedAll items]
      · rw [lanesAll, lanesAll, lanes_pruned item, lanesAll_prunedAll items]

end

section Steps

variable {f : Event α × Nat → Option γ}

mutual

theorem filterMap_steps_of_lanes_eq_zero
    (hEnter : ∀ label members depth, f (.enter label members, depth) = none)
    (hExit : ∀ label depth, f (.exit label, depth) = none) (depth : Nat) {item : Item α}
    (h : item.lanes = 0) : (item.steps depth).filterMap f = [] := by
  cases item with
  | signal s => cases h
  | spacer => cases h
  | group label members =>
      rw [steps, List.cons_append, List.filterMap_cons_none (hEnter label members depth),
        List.filterMap_append, filterMap_stepsAll_of_lanesAll_eq_zero hEnter hExit (depth + 1) h,
        List.nil_append, List.filterMap_cons_none (hExit label depth), List.filterMap_nil]

/-- Without lanes there is nothing in the walk but steps into groups and out of them. -/
theorem filterMap_stepsAll_of_lanesAll_eq_zero
    (hEnter : ∀ label members depth, f (.enter label members, depth) = none)
    (hExit : ∀ label depth, f (.exit label, depth) = none) (depth : Nat) {items : List (Item α)}
    (h : lanesAll items = 0) : (stepsAll depth items).filterMap f = [] := by
  cases items with
  | nil => rfl
  | cons item items =>
      rw [lanesAll, Nat.add_eq_zero_iff] at h
      rw [stepsAll, List.filterMap_append, filterMap_steps_of_lanes_eq_zero hEnter hExit depth h.1,
        filterMap_stepsAll_of_lanesAll_eq_zero hEnter hExit depth h.2, List.nil_append]

end

mutual

theorem filterMap_steps_pruned
    (hEnter : ∀ label members depth, f (.enter label members, depth) = none)
    (hExit : ∀ label depth, f (.exit label, depth) = none) (depth : Nat) (item : Item α) :
    (item.pruned.steps depth).filterMap f = (item.steps depth).filterMap f := by
  cases item with
  | signal s => rfl
  | spacer => rfl
  | group label members =>
      rw [pruned, steps, steps, List.cons_append, List.cons_append,
        List.filterMap_cons_none (hEnter label _ depth),
        List.filterMap_cons_none (hEnter label _ depth), List.filterMap_append,
        List.filterMap_append, filterMap_stepsAll_prunedAll hEnter hExit (depth + 1) members]

/-- What is taken of the lanes alone is not changed by the groups that hold none. -/
theorem filterMap_stepsAll_prunedAll
    (hEnter : ∀ label members depth, f (.enter label members, depth) = none)
    (hExit : ∀ label depth, f (.exit label, depth) = none) (depth : Nat) (items : List (Item α)) :
    (stepsAll depth (prunedAll items)).filterMap f = (stepsAll depth items).filterMap f := by
  cases items with
  | nil => rfl
  | cons item items =>
      have hRest := filterMap_stepsAll_prunedAll hEnter hExit depth items
      rw [prunedAll]
      split_ifs with hLanes
      · rw [hRest, stepsAll, List.filterMap_append,
          filterMap_steps_of_lanes_eq_zero hEnter hExit depth hLanes, List.nil_append]
      · rw [stepsAll, stepsAll, List.filterMap_append, List.filterMap_append, hRest,
          filterMap_steps_pruned hEnter hExit depth item]

end

end Steps

theorem signals_prunedAll (items : List (Item α)) : signals (prunedAll items) = signals items := by
  rw [signals, signals, walk_eq_stepsAll, walk_eq_stepsAll]
  exact filterMap_stepsAll_prunedAll (fun _ _ _ => rfl) (fun _ _ => rfl) 0 items

theorem laneDepth_prunedAll (items : List (Item α)) :
    laneDepth (prunedAll items) = laneDepth items := by
  rw [laneDepth, laneDepth, walk_eq_stepsAll, walk_eq_stepsAll]
  exact congrArg (List.foldl max 0)
    (filterMap_stepsAll_prunedAll (fun _ _ _ => rfl) (fun _ _ => rfl) 0 items)

mutual

theorem bracketsOf_pruned (item : Item α) : item.pruned.bracketsOf = item.bracketsOf := by
  cases item with
  | signal s => rfl
  | spacer => rfl
  | group label members =>
      rw [pruned, bracketsOf, bracketsOf, lanesAll_prunedAll members, bracketsAll_prunedAll members]

/-- The groups that hold a lane are all left. -/
theorem bracketsAll_prunedAll (items : List (Item α)) :
    bracketsAll (prunedAll items) = bracketsAll items := by
  cases items with
  | nil => rfl
  | cons item items =>
      have hRest := bracketsAll_prunedAll items
      rw [prunedAll]
      split_ifs with hLanes
      · rw [hRest, bracketsAll, (rows_and_brackets_of_lanes_eq_zero hLanes).2, List.nil_append]
      · rw [bracketsAll, bracketsAll, hRest, bracketsOf_pruned item]

end

mutual

theorem lanes_ne_zero_of_mem_steps_pruned {depth : Nat} {item : Item α} (h : item.lanes ≠ 0)
    {label : Option String} {members : List (Item α)} {inside : Nat}
    (hStep : (.enter label members, inside) ∈ item.pruned.steps depth) :
    lanesAll members ≠ 0 := by
  cases item with
  | signal s => simp [pruned, steps] at hStep
  | spacer => simp [pruned, steps] at hStep
  | group own others =>
      simp only [pruned, steps, List.cons_append, List.mem_cons, List.mem_append, Prod.mk.injEq,
        Event.enter.injEq, reduceCtorEq, false_and, List.not_mem_nil, or_false] at hStep
      rcases hStep with ⟨⟨_, rfl⟩, _⟩ | hInside
      · rw [lanesAll_prunedAll]
        exact h
      · exact lanes_ne_zero_of_mem_stepsAll_prunedAll hInside

/-- The groups that are left all hold a lane. -/
theorem lanes_ne_zero_of_mem_stepsAll_prunedAll {depth : Nat} {items : List (Item α)}
    {label : Option String} {members : List (Item α)} {inside : Nat}
    (hStep : (.enter label members, inside) ∈ stepsAll depth (prunedAll items)) :
    lanesAll members ≠ 0 := by
  cases items with
  | nil => cases hStep
  | cons item items =>
      rw [prunedAll] at hStep
      split_ifs at hStep with hLanes
      · exact lanes_ne_zero_of_mem_stepsAll_prunedAll hStep
      · rw [stepsAll, List.mem_append] at hStep
        rcases hStep with hFirst | hOthers
        · exact lanes_ne_zero_of_mem_steps_pruned hLanes hFirst
        · exact lanes_ne_zero_of_mem_stepsAll_prunedAll hOthers

end

section Traversal

variable {m : Type → Type} [Monad m] [LawfulMonad m] (f : α → m β)

mutual

theorem traverse_bind_congr {item : Item α} {k k' : Item β → m γ}
    (h : ∀ result, result.lanes = item.lanes → k result = k' result) :
    item.traverse f >>= k = item.traverse f >>= k' := by
  cases item with
  | signal s =>
      simp only [traverse, bind_assoc, pure_bind]
      exact bind_congr fun b => h (.signal b) rfl
  | spacer =>
      simp only [traverse, pure_bind]
      exact h .spacer rfl
  | group label members =>
      simp only [traverse, bind_assoc, pure_bind]
      exact traverseAll_bind_congr fun results hLanes => h (.group label results) hLanes

/-- What follows a computation on every signal meets items with as many lanes. -/
theorem traverseAll_bind_congr {items : List (Item α)} {k k' : List (Item β) → m γ}
    (h : ∀ results, lanesAll results = lanesAll items → k results = k' results) :
    traverseAll f items >>= k = traverseAll f items >>= k' := by
  cases items with
  | nil =>
      simp only [traverseAll, pure_bind]
      exact h [] rfl
  | cons item items =>
      simp only [traverseAll, bind_assoc, pure_bind]
      refine traverse_bind_congr fun first hFirst => traverseAll_bind_congr fun rest hRest => ?_
      exact h (first :: rest) (by rw [lanesAll, lanesAll, hFirst, hRest])

end

mutual

theorem traverse_of_lanes_eq_zero {item : Item α} (h : item.lanes = 0) :
    ∃ result : Item β, result.lanes = 0 ∧ item.traverse f = pure result := by
  cases item with
  | signal s => cases h
  | spacer => cases h
  | group label members =>
      obtain ⟨results, hLanes, hResults⟩ := traverseAll_of_lanesAll_eq_zero h
      exact ⟨.group label results, hLanes, by rw [traverse, hResults, pure_bind]⟩

/-- Without lanes there is nothing to compute. -/
theorem traverseAll_of_lanesAll_eq_zero {items : List (Item α)} (h : lanesAll items = 0) :
    ∃ results : List (Item β), lanesAll results = 0 ∧ traverseAll f items = pure results := by
  cases items with
  | nil => exact ⟨[], rfl, rfl⟩
  | cons item items =>
      rw [lanesAll, Nat.add_eq_zero_iff] at h
      obtain ⟨first, hFirst, hTraverse⟩ := traverse_of_lanes_eq_zero h.1
      obtain ⟨rest, hRest, hTraverseAll⟩ := traverseAll_of_lanesAll_eq_zero h.2
      refine ⟨first :: rest, by rw [lanesAll, hFirst, hRest], ?_⟩
      rw [traverseAll, hTraverse, hTraverseAll, pure_bind, pure_bind]

end

mutual

theorem traverse_pruned (item : Item α) : item.pruned.traverse f = pruned <$> item.traverse f := by
  cases item with
  | signal s => simp only [pruned, traverse, map_bind, map_pure]
  | spacer => simp only [pruned, traverse, map_pure]
  | group label members =>
      simp only [pruned, traverse, traverseAll_prunedAll members, map_bind, map_pure, bind_map_left]

/-- A computation on every signal commutes with leaving out the groups that hold no lane. -/
theorem traverseAll_prunedAll (items : List (Item α)) :
    traverseAll f (prunedAll items) = prunedAll <$> traverseAll f items := by
  cases items with
  | nil => simp only [prunedAll, traverseAll, map_pure]
  | cons item items =>
      have hRest := traverseAll_prunedAll items
      rw [prunedAll, traverseAll]
      split_ifs with hLanes
      · obtain ⟨result, hResult, hTraverse⟩ := traverse_of_lanes_eq_zero f hLanes
        simp only [hTraverse, hRest, pure_bind, map_bind, map_pure, prunedAll, hResult, if_true]
        rw [map_eq_pure_bind]
      · simp only [traverseAll, traverse_pruned item, hRest, bind_map_left, map_bind, map_pure]
        refine traverse_bind_congr f fun result hResult => ?_
        rw [hResult.symm] at hLanes
        simp only [prunedAll, hLanes, if_false]

end

end Traversal

end Item

namespace Document

variable {K : Type}

/-- The document without the groups that hold no lane. -/
def pruned (d : Document K) : Document K := { d with items := Item.prunedAll d.items }

end Document
end TimingDiagram
