import TimingDiagram.Number.PairwiseSum
import TimingDiagram.Proofs.Number.Exact

/-! Sums in exact arithmetic. In whatever order the parts of a list are added, they come to its
sum. -/
namespace TimingDiagram
namespace PairwiseSum

variable {K : Type} [Field K]

theorem foldl_add (start : K) (xs : List K) : xs.foldl (· + ·) start = start + xs.sum := by
  induction xs generalizing start with
  | nil => rw [List.foldl_nil, List.sum_nil, add_zero]
  | cons x xs ih => rw [List.foldl_cons, ih, List.sum_cons, add_assoc]

/-- What is added to eight parts and what is left over come to what there was. -/
theorem of_addEights {parts xs : List K} (h : parts.length = 8) :
    (addEights parts xs).1.length = 8 ∧
      (addEights parts xs).1.sum + (addEights parts xs).2.sum = parts.sum + xs.sum := by
  induction parts, xs using addEights.induct with
  | case1 parts xs hLong ih =>
      have hTaken : parts.length = (xs.take 8).length := by
        rw [h, List.length_take, Nat.min_eq_left hLong]
      have hParts : (List.zipWith (· + ·) parts (xs.take 8)).length = 8 := by
        rw [List.length_zipWith, ← hTaken, h, Nat.min_self]
      obtain ⟨hLength, hSum⟩ := ih hParts
      rw [addEights, if_pos hLong]
      refine ⟨hLength, hSum.trans ?_⟩
      rw [← List.sum_add_sum_eq_sum_zipWith_of_length_eq _ _ hTaken, add_assoc,
        List.sum_take_add_sum_drop]
  | case2 parts xs hShort =>
      rw [addEights, if_neg hShort]
      exact ⟨h, rfl⟩

variable [LinearOrder K] [IsStrictOrderedRing K] [FloorRing K] [Scalar K] [ExactScalar K]

theorem joinParts_eq (parts : List K) : joinParts parts = parts.sum := by
  rw [joinParts.eq_def]
  split
  · simp only [List.sum_cons, List.sum_nil]
    ring
  · rw [foldl_add, Scalar.zero_eq, zero_add]

theorem block_eq {xs : List K} (h : 8 ≤ xs.length) : block xs = xs.sum := by
  have hParts : (xs.take 8).length = 8 := by rw [List.length_take, Nat.min_eq_left h]
  have hBlock : block xs = (addEights (xs.take 8) (xs.drop 8)).2.foldl (· + ·)
      (joinParts (addEights (xs.take 8) (xs.drop 8)).1) := rfl
  rw [hBlock, foldl_add, joinParts_eq, (of_addEights hParts).2, List.sum_take_add_sum_drop]

/-- Over exact numbers the parts come to the sum. -/
theorem sum_eq (xs : List K) : sum xs = xs.sum := by
  induction xs using sum.induct with
  | case1 xs hFew => rw [sum, if_pos hFew, foldl_add, Scalar.zero_eq, zero_add]
  | case2 xs hMany hBlock => rw [sum, if_neg hMany, if_pos hBlock, block_eq (not_lt.mp hMany)]
  | case3 xs hMany hLong ihLeft ihRight =>
      rw [sum, if_neg hMany, if_neg hLong, ihLeft, ihRight, List.sum_take_add_sum_drop]

end PairwiseSum
end TimingDiagram
