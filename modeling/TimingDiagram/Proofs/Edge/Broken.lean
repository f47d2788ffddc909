import TimingDiagram.Figure.Emit
import TimingDiagram.Proofs.Edge.Registry
import TimingDiagram.Proofs.Log.Alerts

/-! Edges whose ends are no anchors. What becomes of an edge depends on nothing but the anchors, so
that leaving the broken edges out leaves the others as they are. -/
namespace TimingDiagram

namespace EdgeSpec

/-- Whether both ends of an edge are among some names. -/
def isWhole (names : List String) (e : EdgeSpec) : Bool :=
  names.contains e.source && names.contains e.target

/-- The ends of an edge that are among some names. -/
def knownEnds (names : List String) (e : EdgeSpec) : List String :=
  [e.source, e.target].filter names.contains

/-- The first end of an edge that is not among some names. -/
def missing (names : List String) (e : EdgeSpec) : UnknownAnchor :=
  ⟨if names.contains e.source then e.target else e.source, e.print⟩

/-- What is told of an edge whose ends are not among some names. -/
def alert (names : List String) (e : EdgeSpec) : Record :=
  ⟨.warning, EdgeResult.source, "unresolved edge " ++ e.print ++ ": " ++ (e.missing names).message⟩

end EdgeSpec

namespace EdgeResult

variable {K : Type} {r : Registry K} {e : EdgeSpec} {edges : List EdgeSpec} {result : EdgeResult K}
  {results : List (EdgeResult K)}

def isResolved : EdgeResult K → Bool
  | resolved _ => true
  | broken _ => false

/-- What can become of an edge among some anchors. -/
inductive Of (r : Registry K) (e : EdgeSpec) : EdgeResult K → Prop where
  | resolved {path : EdgePath K} (whole : e.isWhole r.names = true) : Of r e (.resolved path)
  | broken {known : List (Anchor K)} (broken : e.isWhole r.names = false)
      (known_mem : ∀ a ∈ known, a ∈ r.anchors)
      (known_names : known.map Anchor.name = e.knownEnds r.names) :
      Of r e (.broken ⟨e, e.missing r.names, known⟩)

end EdgeResult

namespace Registry

variable {K : Type} {r : Registry K} {name : String}

theorem contains_names (r : Registry K) (name : String) :
    r.names.contains name = (r.find? name).isSome := by
  rw [Bool.eq_iff_iff, List.contains_iff_mem, ← Option.ne_none_iff_isSome, Ne, find?_eq_none_iff,
    not_not]

theorem name_of_find? {a : Anchor K} (h : r.find? name = some a) : a.name = name := by
  simpa using List.find?_some h

/-- The anchors of some names are those of the known ones. -/
theorem map_name_filterMap_find? (r : Registry K) (names : List String) :
    (names.filterMap r.find?).map Anchor.name = names.filter r.names.contains := by
  induction names with
  | nil => rfl
  | cons name names ih =>
      cases hFound : r.find? name with
      | none =>
          rw [List.filterMap_cons_none hFound, List.filter_cons_of_neg, ih]
          rw [contains_names, hFound]
          exact Bool.false_ne_true
      | some a =>
          rw [List.filterMap_cons_some hFound, List.filter_cons_of_pos, List.map_cons, ih,
            name_of_find? hFound]
          rw [contains_names, hFound]
          rfl

end Registry

namespace EdgeResult

variable {K : Type} [Add K] [Sub K] [Mul K] [Div K] [Scalar K] {r : Registry K} {e : EdgeSpec}
  {edges : List EdgeSpec} {result : EdgeResult K} {results : List (EdgeResult K)}

omit [Add K] [Sub K] [Mul K] [Div K] [Scalar K] in
/-- The ends of an edge are found when it is whole, and else the first unknown one is told. -/
theorem ends_eq (r : Registry K) (e : EdgeSpec) :
    (e.isWhole r.names = true ∧ ∃ ends, EdgePath.ends e r = .ok ends) ∨
      (e.isWhole r.names = false ∧ EdgePath.ends e r = .error (e.missing r.names)) := by
  simp only [EdgeSpec.isWhole, EdgeSpec.missing, Registry.contains_names, EdgePath.ends,
    Registry.lookup]
  cases r.find? e.source with
  | none => exact .inr ⟨rfl, rfl⟩
  | some source =>
      cases r.find? e.target with
      | none => exact .inr ⟨rfl, rfl⟩
      | some target => exact .inl ⟨rfl, _, rfl⟩

/-- The path of an edge is that of its declaration. -/
theorem spec_of_ofSpec {path : EdgePath K} (h : ofSpec r e = .ok (.resolved path)) :
    path.spec = e := by
  rw [ofSpec] at h
  cases hEnds : EdgePath.ends e r with
  | error missing =>
      rw [hEnds] at h
      cases h
  | ok ends =>
      rw [hEnds] at h
      obtain ⟨own, hOwn, h⟩ := bind_eq_ok_iff.mp h
      cases h
      obtain ⟨_, _, hOwn⟩ := bind_eq_ok_iff.mp hOwn
      cases hOwn
      rfl

theorem of_ofSpec (h : ofSpec r e = .ok result) : Of r e result := by
  rw [ofSpec] at h
  rcases ends_eq r e with ⟨hWhole, ⟨source, target⟩, hEnds⟩ | ⟨hBroken, hEnds⟩
  · rw [hEnds] at h
    obtain ⟨path, _, h⟩ := bind_eq_ok_iff.mp h
    cases h
    exact .resolved hWhole
  · rw [hEnds] at h
    cases h
    refine .broken hBroken (fun a ha => ?_) (r.map_name_filterMap_find? [e.source, e.target])
    have hFound : a ∈ [e.source, e.target].filterMap r.find? := ha
    obtain ⟨name, _, hName⟩ := List.mem_filterMap.mp hFound
    exact List.mem_of_find?_eq_some hName

theorem forall₂_of (h : edges.mapM (ofSpec r) = .ok results) :
    List.Forall₂ (Of r) edges results :=
  (forall₂_of_mapM h).imp fun _ _ => of_ofSpec

section Collecting

omit [Add K] [Sub K] [Mul K] [Div K] [Scalar K]

/-- What broken edges give and resolved ones do not is given in the order of the broken edges. -/
theorem flatMap_of {α : Type} {f : EdgeResult K → List α} {g : EdgeSpec → List α}
    (h : List.Forall₂ (Of r) edges results) (hResolved : ∀ path, f (.resolved path) = [])
    (hBroken : ∀ e known, f (.broken ⟨e, e.missing r.names, known⟩) = g e) :
    results.flatMap f = (edges.filter fun e => !e.isWhole r.names).flatMap g := by
  induction h with
  | nil => rfl
  | cons hFirst _ ih =>
      rw [List.flatMap_cons, ih]
      cases hFirst with
      | resolved hWhole =>
          rw [hResolved, List.nil_append, List.filter_cons_of_neg (by simp [hWhole])]
      | broken hOpen =>
          rw [hBroken, List.filter_cons_of_pos (by simp [hOpen]), List.flatMap_cons]

theorem filterMap_warning? (h : List.Forall₂ (Of r) edges results) :
    results.filterMap warning? =
      (edges.filter fun e => !e.isWhole r.names).map (EdgeSpec.missing r.names) := by
  rw [List.filterMap_eq_flatMap_toList, List.map_eq_flatMap]
  exact flatMap_of h (fun _ => rfl) fun _ _ => rfl

theorem flatMap_records (h : List.Forall₂ (Of r) edges results) :
    results.flatMap records =
      (edges.filter fun e => !e.isWhole r.names).map (EdgeSpec.alert r.names) := by
  rw [List.map_eq_flatMap]
  exact flatMap_of h (fun _ => rfl) fun _ _ => rfl

end Collecting

/-- The other edges come out as they do beside broken ones. -/
theorem mapM_ofSpec_filter (h : edges.mapM (ofSpec r) = .ok results) :
    (edges.filter (EdgeSpec.isWhole r.names)).mapM (ofSpec r) =
      .ok (results.filter isResolved) := by
  induction edges generalizing results with
  | nil =>
      cases h
      rfl
  | cons e edges ih =>
      rw [List.mapM_cons] at h
      obtain ⟨result, hFirst, h⟩ := bind_eq_ok_iff.mp h
      obtain ⟨others, hOthers, h⟩ := bind_eq_ok_iff.mp h
      cases h
      cases of_ofSpec hFirst with
      | resolved hWhole =>
          rw [List.filter_cons_of_pos hWhole, List.mapM_cons, hFirst, ok_bind, ih hOthers, ok_bind,
            List.filter_cons_of_pos rfl]
          rfl
      | broken hBroken =>
          rw [List.filter_cons_of_neg (by simp [hBroken]), ih hOthers,
            List.filter_cons_of_neg Bool.false_ne_true]

end EdgeResult
end TimingDiagram
