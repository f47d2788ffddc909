import TimingDiagram.Document.Basic
import TimingDiagram.Proofs.Document.Walk

/-! Items of one shape with other signals in them: a function on every signal, and another signal
in the place of one. What a computation on every signal gives depends on a signal only through the
outcome on it. -/
namespace TimingDiagram
namespace Item

variable {α β γ : Type}

mutual

/-- The item with a function on every signal. -/
def map (f : α → β) : Item α → Item β
  | signal s => .signal (f s)
  | spacer => .spacer
  | group label members => .group label (mapAll f members)

/-- Some items with a function on every signal. -/
def mapAll (f : α → β) : List (Item α) → List (Item β)
  | [] => []
  | item :: rest => item.map f :: mapAll f rest

end

mutual

/-- The item with another signal in the place of the one with a given number. -/
def replace (i : Nat) (s : α) : Item α → Item α
  | signal t => .signal (if i = 0 then s else t)
  | spacer => .spacer
  | group label members => .group label (replaceAll i s members)

/-- Some items with another signal in the place of the one with a given number. -/
def replaceAll (i : Nat) (s : α) : List (Item α) → List (Item α)
  | [] => []
  | item :: rest =>
    if i < item.leaves.length then item.replace i s :: rest
    else item :: replaceAll (i - item.leaves.length) s rest

end

end Item

namespace Event

variable {α β : Type}

/-- The step of the walk with a function on every signal. -/
def map (f : α → β) : Event α → Event β
  | enter label members => enter label (Item.mapAll f members)
  | exit label => exit label
  | lane content => lane (content.map f)

end Event

namespace Item

variable {α β γ : Type}

section Inversion

variable {f : α → β} {item : Item α} {items : List (Item α)}

theorem map_eq_signal {t : β} (h : item.map f = .signal t) : ∃ s, item = .signal s ∧ f s = t := by
  cases item with
  | signal s => exact ⟨s, rfl, Item.signal.inj h⟩
  | spacer => cases h
  | group label members => cases h

theorem map_eq_spacer (h : item.map f = .spacer) : item = .spacer := by
  cases item with
  | signal s => cases h
  | spacer => rfl
  | group label members => cases h

theorem map_eq_group {label : Option String} {others : List (Item β)}
    (h : item.map f = .group label others) :
    ∃ members, item = .group label members ∧ mapAll f members = others := by
  cases item with
  | signal s => cases h
  | spacer => cases h
  | group own members =>
      obtain ⟨rfl, hMembers⟩ := Item.group.inj h
      exact ⟨members, rfl, hMembers⟩

theorem mapAll_eq_nil (h : mapAll f items = []) : items = [] := by
  cases items with
  | nil => rfl
  | cons item items => cases h

theorem mapAll_eq_cons {other : Item β} {others : List (Item β)}
    (h : mapAll f items = other :: others) :
    ∃ item rest, items = item :: rest ∧ item.map f = other ∧ mapAll f rest = others := by
  cases items with
  | nil => cases h
  | cons item rest =>
      obtain ⟨hItem, hRest⟩ := List.cons.inj h
      exact ⟨item, rest, rfl, hItem, hRest⟩

end Inversion

mutual

theorem map_map (f : α → β) (g : β → γ) (item : Item α) :
    (item.map f).map g = item.map (g ∘ f) := by
  cases item with
  | signal s => rfl
  | spacer => rfl
  | group label members => rw [map, map, map, mapAll_mapAll f g members]

theorem mapAll_mapAll (f : α → β) (g : β → γ) (items : List (Item α)) :
    mapAll g (mapAll f items) = mapAll (g ∘ f) items := by
  cases items with
  | nil => rfl
  | cons item items => rw [mapAll, mapAll, mapAll, map_map f g item, mapAll_mapAll f g items]

end

mutual

theorem leaves_map (f : α → β) (item : Item α) : (item.map f).leaves = item.leaves.map f := by
  cases item with
  | signal s => rfl
  | spacer => rfl
  | group label members => rw [map, leaves, leaves, leavesAll_mapAll f members]

theorem leavesAll_mapAll (f : α → β) (items : List (Item α)) :
    leavesAll (mapAll f items) = (leavesAll items).map f := by
  cases items with
  | nil => rfl
  | cons item items =>
      rw [mapAll, leavesAll, leavesAll, List.map_append, leaves_map f item,
        leavesAll_mapAll f items]

end

mutual

theorem lanes_map (f : α → β) (item : Item α) : (item.map f).lanes = item.lanes := by
  cases item with
  | signal s => rfl
  | spacer => rfl
  | group label members => rw [map, lanes, lanes, lanesAll_mapAll f members]

theorem lanesAll_mapAll (f : α → β) (items : List (Item α)) :
    lanesAll (mapAll f items) = lanesAll items := by
  cases items with
  | nil => rfl
  | cons item items => rw [mapAll, lanesAll, lanesAll, lanes_map f item, lanesAll_mapAll f items]

end

mutual

theorem steps_map (f : α → β) (depth : Nat) (item : Item α) :
    (item.map f).steps depth = (item.steps depth).map fun step => (step.1.map f, step.2) := by
  cases item with
  | signal s => rfl
  | spacer => rfl
  | group label members =>
      rw [map, steps, steps, stepsAll_mapAll f (depth + 1) members, List.map_append, List.map_cons]
      rfl

/-- The walk takes the same steps through items with other signals. -/
theorem stepsAll_mapAll (f : α → β) (depth : Nat) (items : List (Item α)) :
    stepsAll depth (mapAll f items) =
      (stepsAll depth items).map fun step => (step.1.map f, step.2) := by
  cases items with
  | nil => rfl
  | cons item items =>
      rw [mapAll, stepsAll, stepsAll, List.map_append, steps_map f depth item,
        stepsAll_mapAll f depth items]

end

theorem laneDepth_mapAll (f : α → β) (items : List (Item α)) :
    laneDepth (mapAll f items) = laneDepth items := by
  rw [laneDepth, laneDepth, walk_eq_stepsAll, walk_eq_stepsAll, stepsAll_mapAll,
    List.filterMap_map]
  congr 2
  funext step
  obtain ⟨event, depth⟩ := step
  cases event <;> rfl

mutual

theorem outcome_traverse_map (f : α → Logged β) (g : β → γ) (item : Item α) :
    (item.traverse f).outcome.map (map g) = item.traverse fun s => (f s).outcome.map g := by
  cases item with
  | signal s =>
      rw [traverse, traverse, Logged.outcome_bind]
      cases (f s).outcome <;> rfl
  | spacer => rfl
  | group label members =>
      rw [traverse, traverse, ← outcome_traverseAll_map f g members, Logged.outcome_bind]
      cases (traverseAll f members).outcome <;> rfl

/-- A function on the results of a computation on every signal is one on its outcomes. -/
theorem outcome_traverseAll_map (f : α → Logged β) (g : β → γ) (items : List (Item α)) :
    (traverseAll f items).outcome.map (mapAll g) =
      traverseAll (fun s => (f s).outcome.map g) items := by
  cases items with
  | nil => rfl
  | cons item items =>
      rw [traverseAll, traverseAll, ← outcome_traverse_map f g item,
        ← outcome_traverseAll_map f g items]
      simp only [Logged.outcome_bind, Logged.outcome_pure]
      cases (item.traverse f).outcome with
      | error e => rfl
      | ok first => cases (traverseAll f items).outcome <;> rfl

end

section Inverse

variable {f : α → Logged β} {g : β → α}

mutual

theorem map_of_traverse (hf : ∀ a b, (f a).outcome = .ok b → g b = a) {item : Item α}
    {result : Item β} (h : (item.traverse f).outcome = .ok result) : result.map g = item := by
  cases item with
  | signal s =>
      rw [traverse, Logged.outcome_bind] at h
      obtain ⟨b, hb, h⟩ := bind_eq_ok_iff.mp h
      cases h
      rw [map, hf s b hb]
  | spacer =>
      cases h
      rfl
  | group label members =>
      rw [traverse, Logged.outcome_bind] at h
      obtain ⟨results, hResults, h⟩ := bind_eq_ok_iff.mp h
      cases h
      rw [map, mapAll_of_traverseAll hf hResults]

/-- Results that show the signals they come from show the items. -/
theorem mapAll_of_traverseAll (hf : ∀ a b, (f a).outcome = .ok b → g b = a)
    {items : List (Item α)} {results : List (Item β)}
    (h : (traverseAll f items).outcome = .ok results) : mapAll g results = items := by
  cases items with
  | nil =>
      cases h
      rfl
  | cons item items =>
      rw [traverseAll] at h
      simp only [Logged.outcome_bind] at h
      obtain ⟨first, hFirst, h⟩ := bind_eq_ok_iff.mp h
      obtain ⟨others, hOthers, h⟩ := bind_eq_ok_iff.mp h
      cases h
      rw [mapAll, map_of_traverse hf hFirst, mapAll_of_traverseAll hf hOthers]

end

end Inverse

section Replacing

variable {i : Nat} {s t : α}

mutual

theorem leaves_replace (i : Nat) (s : α) (item : Item α) :
    (item.replace i s).leaves = item.leaves.set i s := by
  cases item with
  | signal t => cases i <;> rfl
  | spacer => rfl
  | group label members => rw [replace, leaves, leaves, leavesAll_replaceAll i s members]

theorem leavesAll_replaceAll (i : Nat) (s : α) (items : List (Item α)) :
    leavesAll (replaceAll i s items) = (leavesAll items).set i s := by
  cases items with
  | nil => rfl
  | cons item items =>
      rw [replaceAll, leavesAll, List.set_append]
      split_ifs
      · rw [leavesAll, leaves_replace i s item]
      · rw [leavesAll, leavesAll_replaceAll _ s items]

end

mutual

theorem replace_self {i : Nat} {item : Item α} (h : item.leaves[i]? = some s) :
    item.replace i s = item := by
  cases item with
  | signal t =>
      cases i with
      | zero =>
          cases h
          rfl
      | succ i => cases h
  | spacer => rfl
  | group label members => rw [replace, replaceAll_self h]

/-- A signal in its own place changes nothing. -/
theorem replaceAll_self {i : Nat} {items : List (Item α)} (h : (leavesAll items)[i]? = some s) :
    replaceAll i s items = items := by
  cases items with
  | nil => rfl
  | cons item items =>
      rw [leavesAll, List.getElem?_append] at h
      rw [replaceAll]
      split_ifs at h ⊢
      · rw [replace_self h]
      · rw [replaceAll_self h]

end

variable {m : Type → Type} [Monad m] {f : α → m β}

mutual

theorem traverse_replace (h : f s = f t) (i : Nat) (item : Item α) :
    (item.replace i s).traverse f = (item.replace i t).traverse f := by
  cases item with
  | signal u =>
      rw [replace, replace, traverse, traverse]
      split_ifs
      · rw [h]
      · rfl
  | spacer => rfl
  | group label members =>
      rw [replace, replace, traverse, traverse, traverseAll_replaceAll h i members]

/-- A computation on every signal does not tell two signals apart on which it does the same. -/
theorem traverseAll_replaceAll (h : f s = f t) (i : Nat) (items : List (Item α)) :
    traverseAll f (replaceAll i s items) = traverseAll f (replaceAll i t items) := by
  cases items with
  | nil => rfl
  | cons item items =>
      rw [replaceAll, replaceAll]
      split_ifs
      · rw [traverseAll, traverseAll, traverse_replace h i item]
      · rw [traverseAll, traverseAll, traverseAll_replaceAll h _ items]

end

end Replacing

end Item

namespace Document

variable {K : Type} {d : Document K} {i : Nat} {s : Signal K}

/-- The document with another signal in the place of the one with a given number. -/
def setSignal (d : Document K) (i : Nat) (s : Signal K) : Document K :=
  { d with items := Item.replaceAll i s d.items }

theorem signals_setSignal (d : Document K) (i : Nat) (s : Signal K) :
    (d.setSignal i s).signals = d.signals.set i s := by
  rw [signals, signals, Item.signals_eq_leavesAll, Item.signals_eq_leavesAll]
  exact Item.leavesAll_replaceAll i s d.items

theorem setSignal_self (h : d.signals[i]? = some s) : d.setSignal i s = d := by
  rw [signals, Item.signals_eq_leavesAll] at h
  rw [setSignal, Item.replaceAll_self h]

end Document
end TimingDiagram
