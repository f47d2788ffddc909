import TimingDiagram.Proofs.Wave.Attachments
import TimingDiagram.Proofs.Wave.Merging

/-! Merging in batches. Segments may be merged in parts first and the parts together afterwards;
nothing is assumed of them, so that they may overlap, repeat or leave cycles out. -/
namespace TimingDiagram
namespace Segment

variable {left mid right : Segment}

theorem merge_assoc (left mid right : Segment) :
    (left.merge mid).merge right = left.merge (mid.merge right) := by
  simp only [merge, add_assoc, List.append_assoc]

/-- A merged run goes on from what its first part goes on from. -/
theorem absorbs_merge (left mid right : Segment) :
    left.absorbs (mid.merge right) = left.absorbs mid := rfl

/-- What goes on from the last part of a run goes on from the run. The label of that part is that
of the run or none, so a label that repeats it repeats the label of the run. -/
theorem absorbs_of_absorbs (hMid : left.absorbs mid = true) (hRight : mid.absorbs right = true) :
    (left.merge mid).absorbs right = true := by
  obtain ⟨_, hNext, hLook, hData⟩ := absorbs_iff.mp hMid
  obtain ⟨hAnchor, hStart, hSame, hMore⟩ := absorbs_iff.mp hRight
  refine absorbs_iff.mpr ⟨hAnchor, (stop_merge hNext).trans hStart, hLook.trans hSame, ?_⟩
  intro (hKind : left.kind = .data)
  obtain ⟨_, hLabel⟩ := hData hKind
  obtain ⟨hContinued, hRepeats⟩ := hMore ((look_eq_iff.mp hLook).1 ▸ hKind)
  refine ⟨hContinued, ?_⟩
  change right.label = none ∨ right.label = left.label
  rcases hRepeats with hNone | hRepeats
  · exact .inl hNone
  · exact hLabel.imp hRepeats.trans hRepeats.trans

/-- Whether the run that is open goes on is told by how the next one opens, so what follows it may
have been merged before. -/
theorem coalesceFrom_coalesceFrom (current s : Segment) (rest : List Segment) :
    coalesceFrom current (coalesceFrom s rest) = coalesceFrom current (s :: rest) := by
  induction rest generalizing current s with
  | nil => rfl
  | cons next rest ih =>
      rw [coalesceFrom]
      split_ifs with hNext
      · rw [ih, coalesceFrom, coalesceFrom, absorbs_merge]
        split_ifs with hFirst
        · rw [coalesceFrom, absorbs_of_absorbs hFirst hNext, if_pos rfl, merge_assoc]
        · rw [coalesceFrom, if_pos hNext]
      · rw [coalesceFrom, coalesceFrom, ih, ih]

theorem coalesceFrom_coalesce (current : Segment) (segments : List Segment) :
    coalesceFrom current (coalesce segments) = coalesceFrom current segments := by
  cases segments with
  | nil => rfl
  | cons s rest => rw [coalesce, coalesceFrom_coalesceFrom]

theorem coalesceFrom_append_coalesce (current : Segment) (before after : List Segment) :
    coalesceFrom current (before ++ coalesce after) = coalesceFrom current (before ++ after) := by
  induction before generalizing current with
  | nil => exact coalesceFrom_coalesce current after
  | cons s before ih => rw [List.cons_append, List.cons_append, coalesceFrom, coalesceFrom, ih, ih]

/-- The second part of a list may be merged first. -/
theorem coalesce_append_coalesce (before after : List Segment) :
    coalesce (before ++ coalesce after) = coalesce (before ++ after) := by
  cases before with
  | nil => exact coalesce_coalesce after
  | cons s before => exact coalesceFrom_append_coalesce s before after

theorem coalesce_coalesceFrom_append (current : Segment) (before after : List Segment) :
    coalesce (coalesceFrom current before ++ after) = coalesceFrom current (before ++ after) := by
  induction before generalizing current with
  | nil => rfl
  | cons s before ih =>
      rw [coalesceFrom]
      split_ifs with hAbsorbs
      · rw [ih, List.cons_append, coalesceFrom, if_pos hAbsorbs]
      · calc coalesceFrom current (coalesceFrom s before ++ after)
          _ = coalesceFrom current (coalesce (coalesceFrom s before ++ after)) :=
            (coalesceFrom_coalesce current _).symm
          _ = coalesceFrom current (coalesceFrom s (before ++ after)) := by rw [ih]
          _ = coalesceFrom current (s :: before ++ after) := coalesceFrom_coalesceFrom current s _

/-- The first part of a list may be merged first. -/
theorem coalesce_coalesce_append (before after : List Segment) :
    coalesce (coalesce before ++ after) = coalesce (before ++ after) := by
  cases before with
  | nil => rfl
  | cons s before => exact coalesce_coalesceFrom_append s before after

theorem totalCycles_coalesceFrom (current : Segment) (rest : List Segment) :
    totalCycles (coalesceFrom current rest) = current.cycles + totalCycles rest := by
  induction rest generalizing current with
  | nil => rfl
  | cons s rest ih =>
      rw [coalesceFrom]
      split_ifs
      · rw [ih]
        exact add_assoc current.cycles s.cycles (totalCycles rest)
      · exact congrArg (current.cycles + ·) (ih s)

theorem totalCycles_coalesce (segments : List Segment) :
    totalCycles (coalesce segments) = totalCycles segments := by
  cases segments with
  | nil => rfl
  | cons s rest => exact totalCycles_coalesceFrom s rest

/-- What is merged away carries no anchor. -/
theorem filterMap_anchor_coalesceFrom (current : Segment) (rest : List Segment) :
    (coalesceFrom current rest).filterMap anchor = (current :: rest).filterMap anchor := by
  induction rest generalizing current with
  | nil => rfl
  | cons s rest ih =>
      rw [coalesceFrom]
      split_ifs with hAbsorbs
      · have hNone : s.anchor = none := (absorbs_iff.mp hAbsorbs).1
        rw [ih, List.filterMap_cons, List.filterMap_cons, List.filterMap_cons_none hNone]
        rfl
      · rw [List.filterMap_cons, List.filterMap_cons, ih]

theorem filterMap_anchor_coalesce (segments : List Segment) :
    (coalesce segments).filterMap anchor = segments.filterMap anchor := by
  cases segments with
  | nil => rfl
  | cons s rest => exact filterMap_anchor_coalesceFrom s rest

/-- Merging does not depend on how the segments are batched: merging two batches, and then what
they give, is merging both at once, and so merging again changes nothing. No run goes on from the
one before it, and no cycle, break or anchor is lost. -/
theorem coalesce_batches (first second : List Segment) :
    coalesce (first ++ second) = coalesce (coalesce first ++ coalesce second) ∧
      coalesce (coalesce first) = coalesce first ∧
      ((coalesce first).IsChain fun left right => left.absorbs right = false) ∧
      totalCycles (coalesce first) = totalCycles first ∧
      (coalesce first).flatMap gaps = first.flatMap gaps ∧
      (coalesce first).filterMap anchor = first.filterMap anchor := by
  have hBatches : coalesce (coalesce first ++ coalesce second) = coalesce (first ++ second) := by
    rw [coalesce_append_coalesce, coalesce_coalesce_append]
  exact ⟨hBatches.symm, coalesce_coalesce first, isChain_coalesce first,
    totalCycles_coalesce first, flatMap_gaps_coalesce first, filterMap_anchor_coalesce first⟩

end Segment
end TimingDiagram
