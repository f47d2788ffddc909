import TimingDiagram.Document.Item
import TimingDiagram.Proofs.Outcome

/-! The walk through the items of a document, read off their structure. A computation on every
signal meets the signals in the order of the walk. -/
namespace TimingDiagram
namespace Item

variable {α β : Type}

mutual

/-- The steps of the walk through an item at a depth. -/
def steps (depth : Nat) : Item α → List (Event α × Nat)
  | signal s => [(.lane (some s), depth)]
  | spacer => [(.lane none, depth)]
  | group label members =>
    (.enter label members, depth) :: stepsAll (depth + 1) members ++ [(.exit label, depth)]

/-- The steps of the walk through some items at a depth. -/
def stepsAll (depth : Nat) : List (Item α) → List (Event α × Nat)
  | [] => []
  | item :: rest => item.steps depth ++ stepsAll depth rest

end

mutual

/-- The signals of an item. -/
def leaves : Item α → List α
  | signal s => [s]
  | spacer => []
  | group _ members => leavesAll members

/-- The signals of some items. -/
def leavesAll : List (Item α) → List α
  | [] => []
  | item :: rest => item.leaves ++ leavesAll rest

end

mutual

theorem walkFrom_visit (depth : Nat) (item : Item α) (rest : List (Nat × Task α)) :
    walkFrom ((depth, .visit item) :: rest) = item.steps depth ++ walkFrom rest := by
  cases item with
  | signal s => rw [walkFrom, steps, List.singleton_append]
  | spacer => rw [walkFrom, steps, List.singleton_append]
  | group label members =>
      rw [walkFrom, walkFrom_visits (depth + 1) members, walkFrom, steps, List.append_assoc,
        List.cons_append, List.singleton_append]

theorem walkFrom_visits (depth : Nat) (items : List (Item α)) (rest : List (Nat × Task α)) :
    walkFrom (Task.visits depth items ++ rest) = stepsAll depth items ++ walkFrom rest := by
  cases items with
  | nil => rw [stepsAll, List.nil_append, Task.visits, List.map_nil, List.nil_append]
  | cons item items =>
      have hTail := walkFrom_visits depth items rest
      rw [Task.visits] at hTail ⊢
      rw [List.map_cons, List.cons_append, walkFrom_visit depth item, hTail, stepsAll,
        List.append_assoc]

end

theorem walk_eq_stepsAll (items : List (Item α)) : walk items = stepsAll 0 items := by
  have h := walkFrom_visits 0 items []
  rw [List.append_nil, walkFrom, List.append_nil] at h
  exact h

/-- The signal of a step of the walk, if it has one. -/
def stepSignal : Event α × Nat → Option α
  | (.lane (some s), _) => some s
  | _ => none

mutual

theorem filterMap_steps (depth : Nat) (item : Item α) :
    (item.steps depth).filterMap stepSignal = item.leaves := by
  cases item with
  | signal s => rfl
  | spacer => rfl
  | group label members =>
      have hMembers := filterMap_stepsAll (depth + 1) members
      rw [steps, leaves, List.cons_append, List.filterMap_cons_none rfl, List.filterMap_append,
        hMembers, List.filterMap_cons_none rfl, List.filterMap_nil, List.append_nil]

theorem filterMap_stepsAll (depth : Nat) (items : List (Item α)) :
    (stepsAll depth items).filterMap stepSignal = leavesAll items := by
  cases items with
  | nil => rfl
  | cons item items =>
      rw [stepsAll, leavesAll, List.filterMap_append, filterMap_steps depth item,
        filterMap_stepsAll depth items]

end

/-- The signals that the walk meets are those of the items. -/
theorem signals_eq_leavesAll (items : List (Item α)) : signals items = leavesAll items := by
  rw [← filterMap_stepsAll 0, ← walk_eq_stepsAll]
  rfl

theorem leavesAll_append (items others : List (Item α)) :
    leavesAll (items ++ others) = leavesAll items ++ leavesAll others := by
  induction items with
  | nil => rfl
  | cons item items ih => rw [List.cons_append, leavesAll, leavesAll, ih, List.append_assoc]

@[simp] theorem mem_leavesAll_reverse {items : List (Item α)} {s : α} :
    s ∈ leavesAll items.reverse ↔ s ∈ leavesAll items := by
  induction items with
  | nil => rfl
  | cons item items ih =>
      rw [List.reverse_cons, leavesAll_append, leavesAll, leavesAll, leavesAll, List.append_nil,
        List.mem_append, List.mem_append, ih, or_comm]

mutual

theorem outcome_traverse (f : α → Logged β) (item : Item α) :
    (item.traverse f).outcome.map leaves = item.leaves.mapM fun s => (f s).outcome := by
  cases item with
  | signal s =>
      rw [traverse, leaves, List.mapM_cons, List.mapM_nil]
      simp only [Logged.outcome_bind, Logged.outcome_pure]
      cases (f s).outcome <;> rfl
  | spacer => rfl
  | group label members =>
      rw [traverse, leaves, ← outcome_traverseAll f members]
      simp only [Logged.outcome_bind, Logged.outcome_pure]
      cases (traverseAll f members).outcome <;> rfl

/-- A computation on every signal fails where it first fails on a signal of the walk, and
otherwise gives its results in place of the signals. -/
theorem outcome_traverseAll (f : α → Logged β) (items : List (Item α)) :
    (traverseAll f items).outcome.map leavesAll =
      (leavesAll items).mapM fun s => (f s).outcome := by
  cases items with
  | nil => rfl
  | cons item items =>
      rw [traverseAll, leavesAll, List.mapM_append, ← outcome_traverse f item,
        ← outcome_traverseAll f items]
      simp only [Logged.outcome_bind, Logged.outcome_pure]
      cases (item.traverse f).outcome with
      | error e => rfl
      | ok first => cases (traverseAll f items).outcome <;> rfl

end

end Item
end TimingDiagram
