import Mathlib.Data.List.Induction
import Mathlib.Data.List.Nodup
import TimingDiagram.Edge.Registry
import TimingDiagram.Proofs.Outcome

/-! Registering anchors. All anchors are kept when their names are distinct. Otherwise the first
one whose name is taken already is refused, whatever comes after it. -/
namespace TimingDiagram

/-- The fault of declared names that are not distinct: the first name that was declared before,
with the place where it comes again and the signal where it was declared first. -/
inductive NameClash : List (String × Place) → Error → Prop where
  | taken {before after : List (String × Place)} {name : String} {first again : Place}
      (distinct : (before.map Prod.fst).Nodup) (known : (name, first) ∈ before) :
      NameClash (before ++ (name, again) :: after)
        (.malformed (.anchorTaken name first.signal) again)

theorem nodup_or_nameClash (declared : List (String × Place)) :
    (declared.map Prod.fst).Nodup ∨ ∃ e, NameClash declared e := by
  induction declared using List.reverseRecOn with
  | nil => exact .inl List.nodup_nil
  | append_singleton before last ih =>
      obtain ⟨name, again⟩ := last
      rcases ih with hDistinct | ⟨e, hClash⟩
      · by_cases hKnown : name ∈ before.map Prod.fst
        · obtain ⟨⟨_, first⟩, hFirst, rfl⟩ := List.mem_map.mp hKnown
          exact .inr ⟨_, .taken hDistinct hFirst⟩
        · apply Or.inl
          rw [List.map_append, List.map_cons, List.map_nil]
          exact List.nodup_append_comm.mp (List.nodup_cons.mpr ⟨hKnown, hDistinct⟩)
      · cases hClash with
        | taken hDistinct hKnown =>
            rw [List.append_assoc, List.cons_append]
            exact .inr ⟨_, .taken hDistinct hKnown⟩

theorem NameClash.not_nodup {declared : List (String × Place)} {e : Error}
    (h : NameClash declared e) : ¬ (declared.map Prod.fst).Nodup := by
  cases h with
  | @taken before after name first again _ hKnown =>
      intro hNodup
      rw [List.map_append, List.map_cons] at hNodup
      have hBefore : name ∈ before.map Prod.fst := List.mem_map_of_mem hKnown
      exact (List.nodup_append.mp hNodup).2.2 name hBefore name (by simp) rfl

/-- What an anchor declares: its name, and where. -/
def Anchor.declared {K : Type} (a : Anchor K) : String × Place :=
  (a.name, ⟨a.signal, some a.cycle⟩)

namespace Registry

variable {K : Type} {r : Registry K} {anchors : List (Anchor K)} {e : Error}

theorem map_fst_declared (anchors : List (Anchor K)) :
    (anchors.map Anchor.declared).map Prod.fst = anchors.map Anchor.name := by
  rw [List.map_map]
  rfl

theorem find?_of_mem {a : Anchor K} (h : a ∈ r.anchors) : r.find? a.name = some a := by
  cases hFound : r.find? a.name with
  | none => exact absurd (List.mem_map_of_mem h) (find?_eq_none_iff.mp hFound)
  | some b =>
      have hName : b.name = a.name := by simpa using List.find?_some hFound
      rw [List.inj_on_of_nodup_map r.nodup (List.mem_of_find?_eq_some hFound) h hName]

theorem mem_of_lookup {name edge : String} {a : Anchor K} (h : r.lookup name edge = .ok a) :
    a ∈ r.anchors := by
  rw [lookup] at h
  split at h
  · rename_i found hFound
    cases h
    exact List.mem_of_find?_eq_some hFound
  · cases h

/-- Anchors with new and distinct names are added in their order. -/
theorem foldlM_insert_of_nodup (h : (r.names ++ anchors.map Anchor.name).Nodup) :
    ∃ r', anchors.foldlM insert r = .ok r' ∧ r'.anchors = r.anchors ++ anchors := by
  induction anchors generalizing r with
  | nil => exact ⟨r, rfl, (List.append_nil _).symm⟩
  | cons a anchors ih =>
      rw [List.map_cons] at h
      have hFresh : a.name ∉ r.names := by
        intro hKnown
        exact (List.nodup_append.mp h).2.2 _ hKnown _ (by simp) rfl
      obtain ⟨next, hNext, hAnchors⟩ := insert_of_fresh hFresh
      have hRest : (next.names ++ anchors.map Anchor.name).Nodup := by
        rw [names, hAnchors, List.map_append, List.append_assoc]
        exact h
      obtain ⟨r', hr', hAll⟩ := ih hRest
      refine ⟨r', ?_, by rw [hAll, hAnchors, List.append_assoc, List.singleton_append]⟩
      rw [List.foldlM_cons, hNext, ok_bind, hr']

theorem ofList_of_nodup (h : (anchors.map Anchor.name).Nodup) :
    ∃ r, ofList anchors = .ok r ∧ r.anchors = anchors :=
  foldlM_insert_of_nodup (r := empty) (by simpa [names, empty] using h)

theorem ofList_of_nameClash (h : NameClash (anchors.map Anchor.declared) e) :
    ofList anchors = .error e := by
  generalize hDeclared : anchors.map Anchor.declared = declared at h
  cases h with
  | @taken before after name first again hDistinct hKnown =>
      obtain ⟨earlier, rest, rfl, rfl, hRest⟩ := List.map_eq_append_iff.mp hDeclared
      obtain ⟨a, later, rfl, hAgain, _⟩ := List.map_eq_cons_iff.mp hRest
      obtain ⟨known, hMem, hFirst⟩ := List.mem_map.mp hKnown
      rw [map_fst_declared] at hDistinct
      obtain ⟨r, hr, hAnchors⟩ := ofList_of_nodup hDistinct
      obtain ⟨rfl, rfl⟩ := Prod.mk.inj hAgain
      obtain ⟨hName, rfl⟩ := Prod.mk.inj hFirst
      have hFound : r.find? a.name = some known := by
        rw [← hName]
        exact find?_of_mem (hAnchors ▸ hMem)
      rw [ofList] at hr ⊢
      rw [List.foldlM_append, hr, ok_bind, List.foldlM_cons, insert_of_known hFound, error_bind]

/-- Anchors are registered exactly when their names are distinct, and refused exactly for the
first name that is taken. -/
theorem ofList_iff :
    (Succeeds (ofList anchors) ↔ (anchors.map Anchor.name).Nodup) ∧
      ∀ e, ofList anchors = .error e ↔ NameClash (anchors.map Anchor.declared) e := by
  apply succeeds_iff_and_error_iff
  · rw [← map_fst_declared]
    exact nodup_or_nameClash _
  · intro h
    obtain ⟨r, hr, _⟩ := ofList_of_nodup h
    exact ⟨r, hr⟩
  · intro e h
    exact ofList_of_nameClash h

/-- All anchors that are registered are kept in their order. -/
theorem anchors_of_ofList (h : ofList anchors = .ok r) : r.anchors = anchors := by
  obtain ⟨kept, hKept, hAnchors⟩ := ofList_of_nodup (ofList_iff.1.mp ⟨r, h⟩)
  rw [Except.ok.inj (h.symm.trans hKept), hAnchors]

end Registry
end TimingDiagram
