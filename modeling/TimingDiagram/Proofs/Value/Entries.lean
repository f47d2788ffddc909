import Mathlib.Data.List.Nodup
import TimingDiagram.Value.Basic

/-! The entries of mappings. Writing entries and dropping some by their keys can be told by what is
looked up afterwards, and neither gets in the way of the other. -/
namespace TimingDiagram
namespace Value

variable {entries news : List (String × Value)} {key : String}

/-- Whether no key is used twice. -/
def Distinct (entries : List (String × Value)) : Prop := (entries.map Prod.fst).Nodup

instance : Decidable (Distinct entries) := inferInstanceAs (Decidable (List.Nodup _))

/-- The entries with keys of some kind. -/
def restrict (keep : String → Bool) (entries : List (String × Value)) : List (String × Value) :=
  entries.filter fun entry => keep entry.1

/-- The entries with their values changed, in a way that goes by the key. -/
def revise (f : String → Value → Value) (entries : List (String × Value)) : List (String × Value) :=
  entries.map fun entry => (entry.1, f entry.1 entry.2)

/-- A mapping without the entries whose keys are of another kind; any other value stays as it is. -/
def withKeys (known : String → Bool) : Value → Value
  | mapping entries => mapping (restrict known entries)
  | value => value

@[simp] theorem lookup_nil (key : String) : lookup key [] = none := rfl

theorem lookup_cons (key k : String) (v : Value) (rest : List (String × Value)) :
    lookup key ((k, v) :: rest) = if key = k then some v else lookup key rest := by
  rw [lookup, List.lookup_cons]
  split_ifs with h
  · rw [h, beq_self_eq_true]
  · rw [beq_eq_false_iff_ne.mpr h]
    rfl

theorem lookup_eq_none_iff : lookup key entries = none ↔ key ∉ entries.map Prod.fst := by
  induction entries with
  | nil => simp
  | cons entry rest ih =>
      rw [lookup_cons, List.map_cons, List.mem_cons, not_or, ← ih]
      by_cases h : key = entry.1 <;> simp [h]

theorem lookup_of_mem {value : Value} (h : Distinct entries) (hMem : (key, value) ∈ entries) :
    lookup key entries = some value := by
  induction entries with
  | nil => cases hMem
  | cons entry rest ih =>
      obtain ⟨hFirst, hRest⟩ := List.nodup_cons.mp h
      rw [lookup_cons]
      rcases List.mem_cons.mp hMem with rfl | hMem
      · exact if_pos rfl
      · rw [if_neg, ih hRest hMem]
        rintro rfl
        exact hFirst (List.mem_map.mpr ⟨_, hMem, rfl⟩)

theorem mem_of_lookup {value : Value}
    (h : lookup key entries = some value) : (key, value) ∈ entries := by
  induction entries with
  | nil => cases h
  | cons entry rest ih =>
      rw [lookup_cons] at h
      split_ifs at h with hKey
      · obtain rfl := Option.some.inj h
        exact hKey ▸ List.mem_cons_self
      · exact List.mem_cons_of_mem _ (ih h)

/-- An entry that is written is found, and the others stay. -/
theorem lookup_put (entries : List (String × Value)) (key k : String) (v : Value) :
    lookup key (put entries k v) = if key = k then some v else lookup key entries := by
  induction entries with
  | nil => rw [put, lookup_cons]
  | cons entry rest ih =>
      obtain ⟨l, w⟩ := entry
      rw [put]
      by_cases hSame : l = k
      · rw [if_pos hSame, lookup_cons, lookup_cons, hSame]
        split_ifs <;> rfl
      · rw [if_neg hSame, lookup_cons, lookup_cons, ih]
        by_cases hKey : key = l
        · rw [if_pos hKey, if_neg (hKey ▸ hSame), if_pos hKey]
        · rw [if_neg hKey, if_neg hKey]

theorem mem_keys_put {k : String} {v : Value} :
    key ∈ (put entries k v).map Prod.fst ↔ key = k ∨ key ∈ entries.map Prod.fst := by
  rw [← not_iff_not, ← lookup_eq_none_iff, lookup_put, not_or, ← lookup_eq_none_iff]
  split_ifs with h <;> simp [h]

theorem Distinct.put {k : String} {v : Value} (h : Distinct entries) :
    Distinct (put entries k v) := by
  induction entries with
  | nil => exact List.nodup_singleton k
  | cons entry rest ih =>
      obtain ⟨l, w⟩ := entry
      obtain ⟨hFirst, hRest⟩ := List.nodup_cons.mp h
      rw [Value.put]
      split_ifs with hSame
      · exact h
      · refine List.nodup_cons.mpr ⟨?_, ih hRest⟩
        rw [mem_keys_put]
        exact not_or.mpr ⟨hSame, hFirst⟩

theorem Distinct.update (h : Distinct entries) : Distinct (update entries news) := by
  induction news generalizing entries with
  | nil => exact h
  | cons entry rest ih => exact ih h.put

theorem mem_keys_update (h : key ∈ (update entries news).map Prod.fst) :
    key ∈ entries.map Prod.fst ∨ key ∈ news.map Prod.fst := by
  induction news generalizing entries with
  | nil => exact .inl h
  | cons entry rest ih =>
      have hPut : key ∈ (update (put entries entry.1 entry.2) rest).map Prod.fst := h
      rcases ih hPut with hFirst | hRest
      · rcases mem_keys_put.mp hFirst with rfl | hOld
        · exact .inr List.mem_cons_self
        · exact .inl hOld
      · exact .inr (List.mem_cons_of_mem _ hRest)

/-- What is written over some entries takes precedence. -/
theorem lookup_update (hNews : Distinct news) (entries : List (String × Value)) (key : String) :
    lookup key (update entries news) = (lookup key news).or (lookup key entries) := by
  induction news generalizing entries with
  | nil => rfl
  | cons entry rest ih =>
      obtain ⟨k, v⟩ := entry
      obtain ⟨hFirst, hRest⟩ := List.nodup_cons.mp hNews
      change lookup key (update (put entries k v) rest) = _
      rw [ih hRest, lookup_put, lookup_cons]
      split_ifs with hKey
      · rw [hKey, lookup_eq_none_iff.mpr hFirst]
        rfl
      · rfl

section Revision

variable (f : String → Value → Value)

theorem lookup_revise (entries : List (String × Value)) (key : String) :
    lookup key (revise f entries) = (lookup key entries).map (f key) := by
  induction entries with
  | nil => rfl
  | cons entry rest ih =>
      obtain ⟨k, v⟩ := entry
      rw [revise, List.map_cons, lookup_cons, lookup_cons, ← revise, ih]
      split_ifs with h
      · rw [h, Option.map_some]
      · rfl

theorem lookupD_revise (entries : List (String × Value)) {key : String} {default : Value}
    (h : f key default = default) :
    lookupD key (revise f entries) default = f key (lookupD key entries default) := by
  rw [lookupD, lookup_revise, lookupD]
  cases lookup key entries with
  | none => exact h.symm
  | some value => rfl

theorem revise_eq_self (h : ∀ entry ∈ entries, f entry.1 entry.2 = entry.2) :
    revise f entries = entries := by
  have hSame (entry : String × Value) (hMem : entry ∈ entries) :
      (entry.1, f entry.1 entry.2) = id entry := Prod.ext rfl (h entry hMem)
  rw [revise, List.map_congr_left hSame, List.map_id]

theorem restrict_revise (keep : String → Bool) (entries : List (String × Value)) :
    restrict keep (revise f entries) = revise f (restrict keep entries) := List.filter_map

end Revision

section Restriction

variable (keep : String → Bool)

theorem restrict_cons (k : String) (v : Value) (rest : List (String × Value)) :
    restrict keep ((k, v) :: rest) =
      if keep k then (k, v) :: restrict keep rest else restrict keep rest := List.filter_cons

theorem lookup_restrict (entries : List (String × Value)) (key : String) :
    lookup key (restrict keep entries) = if keep key then lookup key entries else none := by
  induction entries with
  | nil => exact (ite_self none).symm
  | cons entry rest ih =>
      obtain ⟨k, v⟩ := entry
      rw [restrict_cons, lookup_cons, apply_ite (lookup key), lookup_cons, ih]
      by_cases hKey : key = k
      · subst hKey
        by_cases hKeep : keep key <;> simp [hKeep]
      · rw [if_neg hKey, if_neg hKey, ite_self]

theorem lookupD_restrict (entries : List (String × Value)) {key : String} (default : Value)
    (h : keep key = true) :
    lookupD key (restrict keep entries) default = lookupD key entries default := by
  rw [lookupD, lookup_restrict, if_pos h, lookupD]

theorem Distinct.restrict (h : Distinct entries) : Distinct (restrict keep entries) :=
  (List.filter_sublist.map Prod.fst).nodup h

theorem restrict_put (entries : List (String × Value)) (k : String) (v : Value) :
    restrict keep (put entries k v) =
      if keep k then put (restrict keep entries) k v else restrict keep entries := by
  induction entries with
  | nil => rw [put, restrict_cons]; rfl
  | cons entry rest ih =>
      obtain ⟨l, w⟩ := entry
      rw [put, apply_ite (restrict keep), restrict_cons, restrict_cons, restrict_cons, ih]
      by_cases hSame : l = k
      · subst hSame
        by_cases hKeep : keep l <;> simp [hKeep, put]
      · by_cases hOther : keep l <;> by_cases hKeep : keep k <;> simp [hSame, hOther, hKeep, put]

/-- The entries of a kind are what is left of them and of what is written over them. -/
theorem restrict_update (entries news : List (String × Value)) :
    restrict keep (update entries news) = update (restrict keep entries) (restrict keep news) := by
  induction news generalizing entries with
  | nil => rfl
  | cons entry rest ih =>
      obtain ⟨k, v⟩ := entry
      change restrict keep (update (put entries k v) rest) = _
      rw [ih, restrict_put, restrict_cons]
      by_cases hKeep : keep k <;> simp [hKeep, update]

end Restriction

end Value
end TimingDiagram
