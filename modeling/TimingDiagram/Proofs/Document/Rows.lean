import TimingDiagram.Proofs.Document.Walk

/-! The rows of a document from top to bottom: its lanes, and a margin at both ends of every group
that holds a lane. They are read off the walk, with what is known of the groups that are open. -/
namespace TimingDiagram

/-- What takes room from top to bottom. -/
inductive Row where
  | lane
  /-- One end of a group. -/
  | margin
  deriving DecidableEq, Repr

namespace Item

variable {α : Type}

/-- The rows of the steps that are left, inside groups of which it is known whether they hold a
lane, the innermost first. -/
def rowsFrom (filled : List Bool) : List (Event α × Nat) → List Row
  | [] => []
  | (.lane _, _) :: rest => .lane :: rowsFrom filled rest
  | (.enter _ members, _) :: rest =>
    if lanesAll members = 0 then rowsFrom (false :: filled) rest
    else .margin :: rowsFrom (true :: filled) rest
  | (.exit _, _) :: rest =>
    if filled.headD false then .margin :: rowsFrom filled.tail rest
    else rowsFrom filled.tail rest

/-- The rows of some items in document order. -/
def rows (items : List (Item α)) : List Row := rowsFrom [] (walk items)

/-- The label that a step opens a bracket with: it enters a group that holds a lane. -/
def stepBracket : Event α × Nat → Option (Option String)
  | (.enter label members, _) => if lanesAll members = 0 then none else some label
  | _ => none

/-- The labels of the groups that hold a lane, in document order. -/
def brackets (items : List (Item α)) : List (Option String) := (walk items).filterMap stepBracket

mutual

/-- The rows of an item. -/
def rowsOf : Item α → List Row
  | signal _ => [.lane]
  | spacer => [.lane]
  | group _ members =>
    if lanesAll members = 0 then [] else .margin :: rowsAll members ++ [.margin]

def rowsAll : List (Item α) → List Row
  | [] => []
  | item :: rest => item.rowsOf ++ rowsAll rest

end

mutual

/-- The labels of the groups of an item that hold a lane. -/
def bracketsOf : Item α → List (Option String)
  | signal _ => []
  | spacer => []
  | group label members => if lanesAll members = 0 then [] else label :: bracketsAll members

def bracketsAll : List (Item α) → List (Option String)
  | [] => []
  | item :: rest => item.bracketsOf ++ bracketsAll rest

end

mutual

theorem rows_and_brackets_of_lanes_eq_zero {item : Item α} (h : item.lanes = 0) :
    item.rowsOf = [] ∧ item.bracketsOf = [] := by
  cases item with
  | signal s => cases h
  | spacer => cases h
  | group label members =>
      have hMembers : lanesAll members = 0 := h
      rw [rowsOf, bracketsOf, if_pos hMembers, if_pos hMembers]
      exact ⟨rfl, rfl⟩

/-- Without lanes there is no margin either. -/
theorem rows_and_brackets_of_lanesAll_eq_zero {items : List (Item α)} (h : lanesAll items = 0) :
    rowsAll items = [] ∧ bracketsAll items = [] := by
  cases items with
  | nil => exact ⟨rfl, rfl⟩
  | cons item items =>
      rw [lanesAll, Nat.add_eq_zero_iff] at h
      obtain ⟨hRow, hBracket⟩ := rows_and_brackets_of_lanes_eq_zero h.1
      obtain ⟨hRows, hBrackets⟩ := rows_and_brackets_of_lanesAll_eq_zero h.2
      rw [rowsAll, bracketsAll, hRow, hRows, hBracket, hBrackets]
      exact ⟨rfl, rfl⟩

end

mutual

theorem rowsFrom_steps (filled : List Bool) (depth : Nat) (item : Item α)
    (rest : List (Event α × Nat)) :
    rowsFrom filled (item.steps depth ++ rest) = item.rowsOf ++ rowsFrom filled rest := by
  cases item with
  | signal s => rfl
  | spacer => rfl
  | group label members =>
      rw [steps, List.append_assoc, List.cons_append, rowsFrom, rowsOf]
      split_ifs with hLanes
      · rw [rowsFrom_stepsAll, (rows_and_brackets_of_lanesAll_eq_zero hLanes).1]
        rfl
      · rw [rowsFrom_stepsAll, List.cons_append, List.append_assoc]
        rfl

theorem rowsFrom_stepsAll (filled : List Bool) (depth : Nat) (items : List (Item α))
    (rest : List (Event α × Nat)) :
    rowsFrom filled (stepsAll depth items ++ rest) = rowsAll items ++ rowsFrom filled rest := by
  cases items with
  | nil => rfl
  | cons item items =>
      rw [stepsAll, rowsAll, List.append_assoc, rowsFrom_steps filled depth item,
        rowsFrom_stepsAll filled depth items, List.append_assoc]

end

theorem rows_eq_rowsAll (items : List (Item α)) : rows items = rowsAll items := by
  have h := rowsFrom_stepsAll [] 0 items []
  rw [List.append_nil, rowsFrom, List.append_nil] at h
  rw [rows, walk_eq_stepsAll, h]

mutual

theorem filterMap_stepBracket_steps (depth : Nat) (item : Item α) :
    (item.steps depth).filterMap stepBracket = item.bracketsOf := by
  cases item with
  | signal s => rfl
  | spacer => rfl
  | group label members =>
      have hMembers := filterMap_stepBracket_stepsAll (depth + 1) members
      have hExit : [((.exit label : Event α), depth)].filterMap stepBracket = [] := rfl
      rw [steps, bracketsOf, List.cons_append, List.filterMap_cons, stepBracket]
      split_ifs with hLanes
      · rw [List.filterMap_append, hMembers, hExit,
          (rows_and_brackets_of_lanesAll_eq_zero hLanes).2]
        rfl
      · rw [List.filterMap_append, hMembers, hExit, List.append_nil]

theorem filterMap_stepBracket_stepsAll (depth : Nat) (items : List (Item α)) :
    (stepsAll depth items).filterMap stepBracket = bracketsAll items := by
  cases items with
  | nil => rfl
  | cons item items =>
      rw [stepsAll, bracketsAll, List.filterMap_append, filterMap_stepBracket_steps depth item,
        filterMap_stepBracket_stepsAll depth items]

end

theorem brackets_eq_bracketsAll (items : List (Item α)) : brackets items = bracketsAll items := by
  rw [brackets, walk_eq_stepsAll, filterMap_stepBracket_stepsAll]

mutual

theorem count_rowsOf (item : Item α) :
    item.rowsOf.count .lane = item.lanes ∧
      item.rowsOf.count .margin = 2 * item.bracketsOf.length := by
  cases item with
  | signal s => exact ⟨rfl, rfl⟩
  | spacer => exact ⟨rfl, rfl⟩
  | group label members =>
      obtain ⟨hLane, hMargin⟩ := count_rowsAll members
      rw [rowsOf, bracketsOf, lanes]
      split_ifs with hLanes
      · exact ⟨hLanes.symm, rfl⟩
      · simp only [List.cons_append, List.count_cons, List.count_append, List.count_nil, hLane,
          hMargin, List.length_cons]
        exact ⟨by simp, by simp; omega⟩

/-- There are as many rows for lanes as there are lanes, and two margins for every bracket. -/
theorem count_rowsAll (items : List (Item α)) :
    (rowsAll items).count .lane = lanesAll items ∧
      (rowsAll items).count .margin = 2 * (bracketsAll items).length := by
  cases items with
  | nil => exact ⟨rfl, rfl⟩
  | cons item items =>
      obtain ⟨hLane, hMargin⟩ := count_rowsOf item
      obtain ⟨hLanes, hMargins⟩ := count_rowsAll items
      rw [rowsAll, lanesAll, bracketsAll, List.count_append, List.count_append, List.length_append,
        hLane, hLanes, hMargin, hMargins, Nat.mul_add]
      exact ⟨rfl, rfl⟩

end

end Item
end TimingDiagram
