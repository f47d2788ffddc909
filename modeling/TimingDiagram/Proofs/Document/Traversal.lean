import TimingDiagram.Document.Basic
import TimingDiagram.Proofs.Document.Walk
import TimingDiagram.Proofs.Layout.Outline

/-! The walk through a document as a loop that takes tasks off a stack, one at each turn, and how
the steps of the walk nest. What the loop has told, with what the tasks on the stack stand for after
it, is the walk that is read off the structure of the items; so the loop ends, with that walk told.
A step is as deep as there are groups entered before it and not left again, and where a group is
left nothing but the walk through its members has come since it was entered. -/
namespace TimingDiagram
namespace Task

variable {α : Type}

/-- A stack with the visits of some items laid on it one by one, the last item first. -/
def lay (depth : Nat) (items : List (Item α)) (stack : List (Nat × Task α)) :
    List (Nat × Task α) :=
  items.reverse.foldl (fun stack item => (depth, visit item) :: stack) stack

/-- A turn of the loop: the step of the task that is taken off a stack, and the stack after it. -/
def turn (task : Nat × Task α) (stack : List (Nat × Task α)) :
    (Event α × Nat) × List (Nat × Task α) :=
  match task with
  | (depth, leave label) => ((.exit label, depth), stack)
  | (depth, visit (.signal s)) => ((.lane (some s), depth), stack)
  | (depth, visit .spacer) => ((.lane none, depth), stack)
  | (depth, visit (.group label members)) =>
    ((.enter label members, depth), lay (depth + 1) members ((depth, leave label) :: stack))

/-- What the loop tells in so many turns, and the stack that they leave. An empty stack ends it. -/
def turns : Nat → List (Nat × Task α) → List (Event α × Nat) × List (Nat × Task α)
  | 0, stack => ([], stack)
  | _ + 1, [] => ([], [])
  | n + 1, task :: stack =>
    let (step, left) := turn task stack
    let (told, last) := turns n left
    (step :: told, last)

/-- The steps that a task stands for. -/
def steps : Nat × Task α → List (Event α × Nat)
  | (depth, visit item) => item.steps depth
  | (depth, leave label) => [(.exit label, depth)]

/-- The steps that a stack stands for. -/
def pending (stack : List (Nat × Task α)) : List (Event α × Nat) := stack.flatMap steps

theorem lay_eq_visits (depth : Nat) (items : List (Item α)) (stack : List (Nat × Task α)) :
    lay depth items stack = visits depth items ++ stack := by
  rw [lay, List.foldl_reverse, List.foldr_cons_eq_append, visits]

theorem pending_visits (depth : Nat) (items : List (Item α)) :
    pending (visits depth items) = Item.stepsAll depth items := by
  induction items with
  | nil => rfl
  | cons item items ih =>
      rw [Item.stepsAll, ← ih]
      rfl

theorem pending_lay (depth : Nat) (items : List (Item α)) (stack : List (Nat × Task α)) :
    pending (lay depth items stack) = Item.stepsAll depth items ++ pending stack := by
  rw [lay_eq_visits, pending, List.flatMap_append, ← pending, pending_visits, pending]

/-- A turn tells the first of the steps that the stack stands for, and leaves the others. -/
theorem pending_cons (task : Nat × Task α) (stack : List (Nat × Task α)) :
    pending (task :: stack) = (turn task stack).1 :: pending (turn task stack).2 := by
  obtain ⟨depth, task⟩ := task
  cases task with
  | leave label => rfl
  | visit item =>
      cases item with
      | signal s => rfl
      | spacer => rfl
      | group label members =>
          -- Its members and its end take the place of the group on the stack.
          rw [turn, pending_lay, pending, List.flatMap_cons, steps, Item.steps, List.append_assoc]
          rfl

theorem pending_eq_nil {stack : List (Nat × Task α)} (h : pending stack = []) : stack = [] := by
  cases stack with
  | nil => rfl
  | cons task stack =>
      rw [pending_cons] at h
      cases h

/-- After any number of turns that many steps are told, and the stack stands for the others. -/
theorem turns_eq (n : Nat) (stack : List (Nat × Task α)) :
    (turns n stack).1 = (pending stack).take n ∧
      pending (turns n stack).2 = (pending stack).drop n := by
  induction n generalizing stack with
  | zero => exact ⟨rfl, rfl⟩
  | succ n ih =>
      cases stack with
      | nil => exact ⟨rfl, rfl⟩
      | cons task stack =>
          obtain ⟨hTold, hLeft⟩ := ih (turn task stack).2
          rw [pending_cons, List.take_succ_cons, List.drop_succ_cons, ← hTold, ← hLeft]
          exact ⟨rfl, rfl⟩

/-- The loop ends when it has told all that the stack stands for. -/
theorem turns_length_pending (stack : List (Nat × Task α)) :
    turns (pending stack).length stack = (pending stack, []) := by
  obtain ⟨hTold, hLeft⟩ := turns_eq (pending stack).length stack
  rw [List.take_length] at hTold
  rw [List.drop_length] at hLeft
  exact Prod.ext hTold (pending_eq_nil hLeft)

end Task

namespace Item

variable {α : Type}

/-- How many of some steps enter a group. -/
def enters (steps : List (Event α × Nat)) : Nat :=
  steps.countP fun | (.enter _ _, _) => true | _ => false

/-- How many of some steps leave a group. -/
def exits (steps : List (Event α × Nat)) : Nat :=
  steps.countP fun | (.exit _, _) => true | _ => false

/-- The open groups after a step, the most recent one first: a group that is entered comes before
those that were open, and leaving one takes away the most recent. -/
def openAfter (groups : List (Option String × List (Item α))) :
    Event α × Nat → List (Option String × List (Item α))
  | (.enter label members, _) => (label, members) :: groups
  | (.exit _, _) => groups.tail
  | (.lane _, _) => groups

/-- The groups that some steps leave open, the most recent one first. -/
def openGroups (steps : List (Event α × Nat)) : List (Option String × List (Item α)) :=
  steps.foldl openAfter []

theorem enters_append (steps more : List (Event α × Nat)) :
    enters (steps ++ more) = enters steps + enters more := List.countP_append

theorem exits_append (steps more : List (Event α × Nat)) :
    exits (steps ++ more) = exits steps + exits more := List.countP_append

theorem enters_enter (label : Option String) (members : List (Item α)) (depth : Nat)
    (steps : List (Event α × Nat)) :
    enters ((.enter label members, depth) :: steps) = enters steps + 1 := by
  rw [enters, List.countP_cons_of_pos rfl, ← enters]

theorem exits_enter (label : Option String) (members : List (Item α)) (depth : Nat)
    (steps : List (Event α × Nat)) :
    exits ((.enter label members, depth) :: steps) = exits steps := by
  rw [exits, List.countP_cons_of_neg (by simp), ← exits]

mutual

theorem steps_balanced (depth : Nat) (item : Item α) :
    enters (item.steps depth) = exits (item.steps depth) ∧
      ∀ groups, (item.steps depth).foldl openAfter groups = groups := by
  cases item with
  | signal s => exact ⟨rfl, fun _ => rfl⟩
  | spacer => exact ⟨rfl, fun _ => rfl⟩
  | group label members =>
      obtain ⟨hCount, hOpen⟩ := stepsAll_balanced (depth + 1) members
      rw [steps]
      refine ⟨?_, fun groups => ?_⟩
      · rw [enters_append, enters_enter, hCount, exits_append, exits_enter]
        rfl
      · rw [List.cons_append, List.foldl_cons, List.foldl_append, hOpen]
        rfl

/-- The walk through some items leaves every group that it enters, and no other one. -/
theorem stepsAll_balanced (depth : Nat) (items : List (Item α)) :
    enters (stepsAll depth items) = exits (stepsAll depth items) ∧
      ∀ groups, (stepsAll depth items).foldl openAfter groups = groups := by
  cases items with
  | nil => exact ⟨rfl, fun _ => rfl⟩
  | cons item items =>
      obtain ⟨hCount, hOpen⟩ := steps_balanced depth item
      obtain ⟨hCounts, hOpens⟩ := stepsAll_balanced depth items
      rw [stepsAll]
      refine ⟨?_, fun groups => ?_⟩
      · rw [enters_append, exits_append, hCount, hCounts]
      · rw [List.foldl_append, hOpen, hOpens]

end

/-- How a step stands to the steps before it in a walk that begins at some depth: its depth counts
the groups that were entered and are not left with it, and if it leaves a group, only the walk
through the members has come since the group was entered. -/
structure Nests (outer : Nat) (before : List (Event α × Nat)) (step : Event α × Nat) : Prop where
  depth : outer + enters before = exits (before ++ [step]) + step.2
  closes : ∀ label, step.1 = .exit label → ∃ earlier members,
    before = earlier ++ (.enter label members, step.2) :: stepsAll (step.2 + 1) members

namespace Nests

variable {outer : Nat} {before : List (Event α × Nat)} {step : Event α × Nat}

/-- The first step of a walk leaves nothing. -/
theorem head (hStep : exits [step] = 0) (hDepth : step.2 = outer) : Nests outer [] step where
  depth := by
    rw [List.nil_append, hStep, hDepth]
    exact Nat.add_comm outer 0
  closes label hExit := by
    obtain ⟨event, depth⟩ := step
    cases hExit
    cases hStep

/-- A walk goes on in a group that it has entered. -/
theorem enter (h : Nests (outer + 1) before step) (label : Option String)
    (members : List (Item α)) : Nests outer ((.enter label members, outer) :: before) step where
  depth := by
    rw [enters_enter, List.cons_append, exits_enter, ← h.depth]
    omega
  closes other hExit := by
    obtain ⟨earlier, inner, rfl⟩ := h.closes other hExit
    exact ⟨(.enter label members, outer) :: earlier, inner, rfl⟩

/-- A walk goes on after an item. -/
theorem after (h : Nests outer before step) (item : Item α) :
    Nests outer (item.steps outer ++ before) step where
  depth := by
    have hBalanced := (steps_balanced outer item).1
    have hDepth := h.depth
    rw [exits_append] at hDepth
    rw [enters_append, exits_append, exits_append]
    omega
  closes label hExit := by
    obtain ⟨earlier, members, rfl⟩ := h.closes label hExit
    exact ⟨item.steps outer ++ earlier, members, (List.append_assoc _ _ _).symm⟩

/-- A group is left after the walk through its members. -/
theorem exit (outer : Nat) (label : Option String) (members : List (Item α)) :
    Nests outer ((.enter label members, outer) :: stepsAll (outer + 1) members)
      (.exit label, outer) where
  depth := by
    rw [enters_enter, (stepsAll_balanced (outer + 1) members).1, exits_append, exits_enter]
    exact Nat.add_comm outer _
  closes other hExit := by
    cases hExit
    exact ⟨[], members, rfl⟩

end Nests

/-- A step of one list after another is in the first list, or in the second after all of the
first. -/
theorem split_append {β : Type} {first second before after : List β} {step : β}
    (h : first ++ second = before ++ step :: after) :
    (∃ rest, first = before ++ step :: rest) ∨
      ∃ more, before = first ++ more ∧ second = more ++ step :: after := by
  rcases List.append_eq_append_iff.mp h with ⟨more, hBefore, hSecond⟩ | ⟨more, hFirst, hStep⟩
  · exact .inr ⟨more, hBefore, hSecond⟩
  · rcases List.cons_eq_append_iff.mp hStep with ⟨rfl, hSecond⟩ | ⟨rest, rfl, _⟩
    · exact .inr ⟨[], by rw [hFirst, List.append_nil, List.append_nil], hSecond⟩
    · exact .inl ⟨rest, hFirst⟩

theorem split_singleton {β : Type} {only step : β} {before after : List β}
    (h : [only] = before ++ step :: after) : before = [] ∧ step = only := by
  rcases List.singleton_eq_append_iff.mp h with ⟨hBefore, hStep⟩ | ⟨_, hStep⟩
  · exact ⟨hBefore, (List.cons.inj hStep).1⟩
  · cases hStep

mutual

theorem nests_of_steps {outer : Nat} {item : Item α} {before after : List (Event α × Nat)}
    {step : Event α × Nat} (h : item.steps outer = before ++ step :: after) :
    Nests outer before step := by
  cases item with
  | signal s =>
      obtain ⟨rfl, rfl⟩ := split_singleton h
      exact .head rfl rfl
  | spacer =>
      obtain ⟨rfl, rfl⟩ := split_singleton h
      exact .head rfl rfl
  | group label members =>
      rw [steps, List.cons_append] at h
      cases before with
      | nil =>
          obtain ⟨rfl, _⟩ := List.cons.inj h
          exact .head rfl rfl
      | cons first before =>
          -- After the step into the group come those of its members, and last the step out of it.
          obtain ⟨rfl, hRest⟩ := List.cons.inj h
          rcases split_append hRest with ⟨rest, hInside⟩ | ⟨more, rfl, hLast⟩
          · exact (nests_of_stepsAll hInside).enter label members
          · obtain ⟨rfl, rfl⟩ := split_singleton hLast
            rw [List.append_nil]
            exact .exit outer label members

/-- Every step of the walk through some items stands so to the steps before it. -/
theorem nests_of_stepsAll {outer : Nat} {items : List (Item α)}
    {before after : List (Event α × Nat)} {step : Event α × Nat}
    (h : stepsAll outer items = before ++ step :: after) : Nests outer before step := by
  cases items with
  | nil => cases before <;> cases h
  | cons item items =>
      rw [stepsAll] at h
      rcases split_append h with ⟨rest, hFirst⟩ | ⟨more, rfl, hRest⟩
      · exact nests_of_steps hFirst
      · exact (nests_of_stepsAll hRest).after item

end

/-- The walk through the members of a group that was entered leaves it the most recent one open. -/
theorem openGroups_stepsAll (earlier : List (Event α × Nat)) (label : Option String)
    (members : List (Item α)) (depth : Nat) :
    openGroups (earlier ++ (.enter label members, depth) :: stepsAll (depth + 1) members) =
      (label, members) :: openGroups earlier := by
  rw [openGroups, List.foldl_append, List.foldl_cons, (stepsAll_balanced (depth + 1) members).2]
  rfl

end Item

namespace Document

variable {K : Type}

/-- The loop over the stack ends after a turn for each step, with the walk told, and that walk is
read off the structure of the items. A lane is as deep as there are groups entered before it less
those left; a group that is left is the most recent one that is open, and nothing but the walk
through its members has come since it was entered; the signals are those of the items from left to
right. -/
theorem walk_follows_nesting (d : Document K) :
    Task.turns (Item.walk d.items).length (Task.lay 0 d.items []) = (Item.walk d.items, []) ∧
    Item.walk d.items = Item.stepsAll 0 d.items ∧
    (∀ before content depth after,
      Item.walk d.items = before ++ (.lane content, depth) :: after →
        Item.enters before = Item.exits before + depth) ∧
    (∀ before label depth after,
      Item.walk d.items = before ++ (.exit label, depth) :: after →
        ∃ earlier members,
          before = earlier ++ (.enter label members, depth) :: Item.stepsAll (depth + 1) members ∧
          Item.openGroups before = (label, members) :: Item.openGroups earlier) ∧
    d.signals = Item.leavesAll d.items := by
  have hWalk : Item.walk d.items = Item.stepsAll 0 d.items := Item.walk_eq_stepsAll d.items
  have hPending : Task.pending (Task.lay 0 d.items []) = Item.walk d.items := by
    rw [Task.pending_lay, hWalk]
    exact List.append_nil _
  refine ⟨?_, hWalk, fun before content depth after hLane => ?_,
    fun before label depth after hExit => ?_, Item.signals_eq_leavesAll d.items⟩
  · rw [← hPending]
    exact Task.turns_length_pending _
  · have hDepth := (Item.nests_of_stepsAll (hWalk.symm.trans hLane)).depth
    rw [Item.exits_append, Nat.zero_add] at hDepth
    exact hDepth
  · obtain ⟨earlier, members, rfl⟩ :=
      (Item.nests_of_stepsAll (hWalk.symm.trans hExit)).closes label rfl
    exact ⟨earlier, members, rfl, Item.openGroups_stepsAll earlier label members depth⟩

end Document

namespace Description

/-- The blank lane in the inner group is two groups deep, and then the outer one is left. -/
theorem walk_follows_nesting_grouped :
    Item.walk grouped.items = (Item.walk grouped.items).take 3 ++
      (.lane none, 2) :: (Item.walk grouped.items).drop 4 ∧
    Item.enters ((Item.walk grouped.items).take 3) =
      Item.exits ((Item.walk grouped.items).take 3) + 2 ∧
    Item.walk grouped.items = (Item.walk grouped.items).take 5 ++
      (.exit (some "bus"), 0) :: (Item.walk grouped.items).drop 6 ∧
    ∃ earlier members,
      (Item.walk grouped.items).take 5 =
        earlier ++ (.enter (some "bus") members, 0) :: Item.stepsAll 1 members ∧
      Item.openGroups ((Item.walk grouped.items).take 5) =
        (some "bus", members) :: Item.openGroups earlier := by
  obtain ⟨_, hWalk, hLane, hExit, _⟩ := Document.walk_follows_nesting grouped
  have hBlank : Item.walk grouped.items = (Item.walk grouped.items).take 3 ++
      (.lane none, 2) :: (Item.walk grouped.items).drop 4 := by
    rw [hWalk]
    rfl
  have hBus : Item.walk grouped.items = (Item.walk grouped.items).take 5 ++
      (.exit (some "bus"), 0) :: (Item.walk grouped.items).drop 6 := by
    rw [hWalk]
    rfl
  exact ⟨hBlank, hLane _ _ _ _ hBlank, hBus, hExit _ _ _ _ hBus⟩

end Description
end TimingDiagram
