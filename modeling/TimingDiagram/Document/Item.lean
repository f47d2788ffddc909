/-! The items of a diagram: lanes and nested groups of them, and the walk through them
in document order. The walk keeps what is still to be visited on a list, so that it
needs no room for the nesting. -/
namespace TimingDiagram

/-- A lane that holds a signal, a blank lane, or a group. -/
inductive Item (α : Type) where
  | signal (s : α)
  | spacer
  | group (label : Option String) (members : List (Item α))

/-- A step of the walk. -/
inductive Event (α : Type) where
  | enter (label : Option String) (members : List (Item α))
  | exit (label : Option String)
  /-- A lane; a blank one holds nothing. -/
  | lane (content : Option α)

/-- What the walk still has to do. -/
inductive Task (α : Type) where
  | visit (item : Item α)
  | leave (label : Option String)

namespace Item

variable {α : Type}

mutual

/-- The number of steps of the walk through an item. -/
def weight : Item α → Nat
  | signal _ => 1
  | spacer => 1
  | group _ members => 2 + weightAll members

def weightAll : List (Item α) → Nat
  | [] => 0
  | item :: rest => item.weight + weightAll rest

end

mutual

/-- The number of lanes of an item. -/
def lanes : Item α → Nat
  | signal _ => 1
  | spacer => 1
  | group _ members => lanesAll members

def lanesAll : List (Item α) → Nat
  | [] => 0
  | item :: rest => item.lanes + lanesAll rest

end

end Item

namespace Task

variable {α : Type}

/-- The number of steps of a task. -/
def weight : Task α → Nat
  | visit item => item.weight
  | leave _ => 1

def weightAll : List (Nat × Task α) → Nat
  | [] => 0
  | (_, task) :: rest => task.weight + weightAll rest

/-- Visits of some items at one depth. -/
def visits (depth : Nat) (items : List (Item α)) : List (Nat × Task α) :=
  items.map fun item => (depth, visit item)

theorem weightAll_append (xs ys : List (Nat × Task α)) :
    weightAll (xs ++ ys) = weightAll xs + weightAll ys := by
  induction xs with
  | nil => simp [weightAll]
  | cons x rest ih => simp only [List.cons_append, weightAll, ih]; omega

theorem weightAll_visits (depth : Nat) (items : List (Item α)) :
    weightAll (visits depth items) = Item.weightAll items := by
  induction items with
  | nil => rfl
  | cons item rest ih =>
    simp only [visits, List.map_cons, weightAll, Item.weightAll, weight] at ih ⊢
    omega

end Task

namespace Item

variable {α : Type}

/-- The steps of the tasks that are left, each at its depth. -/
def walkFrom (tasks : List (Nat × Task α)) : List (Event α × Nat) :=
  match tasks with
  | [] => []
  | (depth, .leave label) :: rest => (.exit label, depth) :: walkFrom rest
  | (depth, .visit (.signal s)) :: rest => (.lane (some s), depth) :: walkFrom rest
  | (depth, .visit .spacer) :: rest => (.lane none, depth) :: walkFrom rest
  | (depth, .visit (.group label members)) :: rest =>
    (.enter label members, depth) ::
      walkFrom (Task.visits (depth + 1) members ++ (depth, .leave label) :: rest)
termination_by Task.weightAll tasks
decreasing_by
  all_goals
    simp only [Task.weightAll, Task.weight, Item.weight, Task.weightAll_append,
      Task.weightAll_visits]
    omega

/-- The walk through some items in document order, with the depth of each step. -/
def walk (items : List (Item α)) : List (Event α × Nat) :=
  walkFrom (Task.visits 0 items)

/-- The signals in document order. -/
def signals (items : List (Item α)) : List α :=
  (walk items).filterMap fun
    | (.lane (some s), _) => some s
    | _ => none

/-- The depth of the deepest lane. -/
def laneDepth (items : List (Item α)) : Nat :=
  ((walk items).filterMap fun
    | (.lane _, depth) => some depth
    | _ => none).foldl max 0

variable {β : Type} {m : Type → Type} [Monad m]

mutual

/-- The item with every signal replaced by the outcome of a computation on it. -/
def traverse (f : α → m β) : Item α → m (Item β)
  | signal s => do return .signal (← f s)
  | spacer => pure .spacer
  | group label members => do return .group label (← traverseAll f members)

/-- Some items with every signal replaced, in document order. -/
def traverseAll (f : α → m β) : List (Item α) → m (List (Item β))
  | [] => pure []
  | item :: rest => do
    let item ← item.traverse f
    let rest ← traverseAll f rest
    return item :: rest

end

end Item
end TimingDiagram
