import TimingDiagram.Proofs.Wave.Runs

/-! Merging once is enough. A merged run opens as its first piece does, so that what did not go on
before still does not go on afterwards. -/
namespace TimingDiagram
namespace Segment

variable {segments : List Segment}

/-- Whether a segment goes on from another is told by how it opens. -/
theorem absorbs_opening (left right : Segment) : left.absorbs right.opening = left.absorbs right :=
  rfl

/-- The merged runs open as what they are merged from, and none goes on from the one before it. -/
theorem isChain_coalesceFrom (current : Segment) (rest : List Segment) :
    ∃ first more, coalesceFrom current rest = first :: more ∧ first.opening = current.opening ∧
      (first :: more).IsChain fun left right => left.absorbs right = false := by
  induction rest generalizing current with
  | nil => exact ⟨current, [], rfl, rfl, .singleton _⟩
  | cons s rest ih =>
      rw [coalesceFrom]
      split_ifs with hAbsorbs
      · exact ih (current.merge s)
      · obtain ⟨next, more, hRest, hOpening, hChain⟩ := ih s
        rw [hRest]
        refine ⟨current, next :: more, rfl, rfl, List.isChain_cons_cons.mpr ⟨?_, hChain⟩⟩
        rw [← absorbs_opening, hOpening, absorbs_opening]
        simpa using hAbsorbs

theorem isChain_coalesce (segments : List Segment) :
    (coalesce segments).IsChain fun left right => left.absorbs right = false := by
  cases segments with
  | nil => exact .nil
  | cons s rest =>
      obtain ⟨first, more, hMerged, _, hChain⟩ := isChain_coalesceFrom s rest
      rwa [coalesce, hMerged]

theorem coalesceFrom_of_isChain {first : Segment}
    (h : (first :: segments).IsChain fun left right => left.absorbs right = false) :
    coalesceFrom first segments = first :: segments := by
  induction segments generalizing first with
  | nil => rfl
  | cons s rest ih =>
      obtain ⟨hBreak, hRest⟩ := List.isChain_cons_cons.mp h
      rw [coalesceFrom, hBreak, if_neg Bool.false_ne_true, ih hRest]

/-- Where no segment goes on from the one before it there is nothing to merge. -/
theorem coalesce_of_isChain
    (h : segments.IsChain fun left right => left.absorbs right = false) :
    coalesce segments = segments := by
  cases segments with
  | nil => rfl
  | cons s rest => exact coalesceFrom_of_isChain h

/-- Merging merged segments changes nothing. -/
theorem coalesce_coalesce (segments : List Segment) :
    coalesce (coalesce segments) = coalesce segments :=
  coalesce_of_isChain (isChain_coalesce segments)

end Segment
end TimingDiagram
