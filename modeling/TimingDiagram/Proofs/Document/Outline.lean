import Mathlib.Data.List.Pairwise
import Mathlib.Data.List.Perm.Basic
import TimingDiagram.Document.Signal
import TimingDiagram.Proofs.Document.Mapping

/-! The outline of a document: the slots of its lanes, which count all lanes before them, and its
groups and signals in the order in which they open, or close. Only groups that hold a lane have an
entry. -/
namespace TimingDiagram

/-- An entry of an outline: a group with the slots of its lanes, or a signal with its own. -/
inductive Outlined where
  | group (label : Option String) (depth : Nat) (slots : List Nat)
  | signal (name : String) (depth slot : Nat)
  deriving DecidableEq, Repr

namespace Outlined

def slots : Outlined → List Nat
  | group _ _ slots => slots
  | signal _ _ slot => [slot]

/-- How an entry stands before another one: it is a group that the other one lies in, or all its
lanes come before those of the other one. -/
inductive Precedes : Outlined → Outlined → Prop where
  | around {label : Option String} {depth : Nat} {slots : List Nat} {b : Outlined}
      (inside : b.slots ⊆ slots) : Precedes (.group label depth slots) b
  | above {a b : Outlined} (earlier : ∀ i ∈ a.slots, ∀ j ∈ b.slots, i < j) : Precedes a b

/-- Of two entries one lies in the other, or they share no lane. -/
def NestedOrDisjoint (a b : Outlined) : Prop :=
  a.slots ⊆ b.slots ∨ b.slots ⊆ a.slots ∨ a.slots.Disjoint b.slots

instance : Std.Symm NestedOrDisjoint where
  symm a b h := by
    rcases h with hInside | hAround | hDisjoint
    · exact .inr (.inl hInside)
    · exact .inl hAround
    · exact .inr (.inr (List.disjoint_symm hDisjoint))

theorem Precedes.nestedOrDisjoint {a b : Outlined} (h : a.Precedes b) : a.NestedOrDisjoint b := by
  cases h with
  | around hInside => exact .inr (.inl hInside)
  | above hEarlier =>
      refine .inr (.inr (List.disjoint_left.mpr fun i hi hj => ?_))
      exact absurd (hEarlier i hi i hj) (Nat.lt_irrefl i)

/-- Entries that stand in order are nested or disjoint, whichever of them comes first. -/
theorem nestedOrDisjoint_of_pairwise {entries : List Outlined} (h : entries.Pairwise Precedes) :
    ∀ a ∈ entries, ∀ b ∈ entries, a.NestedOrDisjoint b :=
  List.Pairwise.forall_of_forall (fun _ _ => .inl (List.Subset.refl _))
    (h.imp Precedes.nestedOrDisjoint)

end Outlined

namespace Item

variable {α K : Type}

mutual

/-- The slots of the lanes of an item with so many lanes before it. -/
def slots (before : Nat) : Item α → List Nat
  | signal _ => [before]
  | spacer => [before]
  | group _ members => slotsAll before members

def slotsAll (before : Nat) : List (Item α) → List Nat
  | [] => []
  | item :: rest => item.slots before ++ slotsAll (before + item.lanes) rest

end

mutual

/-- The entries of an item, a group before its members. -/
def preorder (depth before : Nat) : Item (Signal K) → List Outlined
  | signal s => [.signal s.name depth before]
  | spacer => []
  | group label members =>
    if lanesAll members = 0 then []
    else .group label depth (slotsAll before members) :: preorderAll (depth + 1) before members

def preorderAll (depth before : Nat) : List (Item (Signal K)) → List Outlined
  | [] => []
  | item :: rest => item.preorder depth before ++ preorderAll depth (before + item.lanes) rest

end

mutual

/-- The groups of an item, each after those in it. -/
def postorder (depth before : Nat) : Item α → List Outlined
  | signal _ => []
  | spacer => []
  | group label members =>
    if lanesAll members = 0 then []
    else postorderAll (depth + 1) before members ++
      [.group label depth (slotsAll before members)]

def postorderAll (depth before : Nat) : List (Item α) → List Outlined
  | [] => []
  | item :: rest => item.postorder depth before ++ postorderAll depth (before + item.lanes) rest

end

mutual

theorem slots_eq_range' (before : Nat) (item : Item α) :
    item.slots before = List.range' before item.lanes := by
  cases item with
  | signal s => rfl
  | spacer => rfl
  | group label members => rw [slots, lanes, slotsAll_eq_range' before members]

/-- Slots count the lanes one by one. -/
theorem slotsAll_eq_range' (before : Nat) (items : List (Item α)) :
    slotsAll before items = List.range' before (lanesAll items) := by
  cases items with
  | nil => rfl
  | cons item items =>
      rw [slotsAll, lanesAll, slots_eq_range' before item, slotsAll_eq_range' _ items,
        List.range'_append_1]

end

mutual

theorem slots_subset_of_mem_preorder (depth before : Nat) (item : Item (Signal K)) :
    ∀ e ∈ item.preorder depth before, e.slots ⊆ item.slots before := by
  cases item with
  | signal s => simp [preorder, slots, Outlined.slots]
  | spacer => simp [preorder]
  | group label members =>
      intro e he
      rw [preorder] at he
      split_ifs at he with hLanes
      · cases he
      · rcases List.mem_cons.mp he with rfl | he
        · exact List.Subset.refl _
        · exact slots_subset_of_mem_preorderAll (depth + 1) before members e he

/-- The lanes of an entry are lanes of the items. -/
theorem slots_subset_of_mem_preorderAll (depth before : Nat) (items : List (Item (Signal K))) :
    ∀ e ∈ preorderAll depth before items, e.slots ⊆ slotsAll before items := by
  cases items with
  | nil => simp [preorderAll]
  | cons item items =>
      intro e he
      rw [preorderAll] at he
      rw [slotsAll]
      rcases List.mem_append.mp he with he | he
      · exact List.subset_append_of_subset_left _
          (slots_subset_of_mem_preorder depth before item e he)
      · exact List.subset_append_of_subset_right _
          (slots_subset_of_mem_preorderAll depth _ items e he)

end

mutual

theorem pairwise_preorder (depth before : Nat) (item : Item (Signal K)) :
    (item.preorder depth before).Pairwise Outlined.Precedes := by
  cases item with
  | signal s => exact List.pairwise_singleton _ _
  | spacer => exact List.Pairwise.nil
  | group label members =>
      rw [preorder]
      split_ifs with hLanes
      · exact List.Pairwise.nil
      · refine List.pairwise_cons.mpr ⟨fun e he => .around ?_, ?_⟩
        · exact slots_subset_of_mem_preorderAll (depth + 1) before members e he
        · exact pairwise_preorderAll (depth + 1) before members

/-- In the order in which they open, a group stands before all that lies in it, and what lies in
none of two groups stands in the order of its lanes. -/
theorem pairwise_preorderAll (depth before : Nat) (items : List (Item (Signal K))) :
    (preorderAll depth before items).Pairwise Outlined.Precedes := by
  cases items with
  | nil => exact List.Pairwise.nil
  | cons item items =>
      rw [preorderAll]
      refine List.pairwise_append.mpr ⟨pairwise_preorder depth before item,
        pairwise_preorderAll depth _ items, fun a ha b hb => .above fun i hi j hj => ?_⟩
      have hFirst := slots_subset_of_mem_preorder depth before item a ha hi
      have hRest := slots_subset_of_mem_preorderAll depth _ items b hb hj
      rw [slots_eq_range', List.mem_range'_1] at hFirst
      rw [slotsAll_eq_range', List.mem_range'_1] at hRest
      omega

end

end Item
end TimingDiagram
