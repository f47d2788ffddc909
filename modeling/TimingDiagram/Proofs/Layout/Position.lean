import Mathlib.Algebra.Order.Floor.Semiring
import TimingDiagram.Proofs.Layout.Columns

/-! The time axis as a map in exact arithmetic. Both lookups walk along the columns, from the first one
that a position does not lie beyond, and so a later position lies further to the right. -/
namespace TimingDiagram
namespace Grid

variable {K : Type} [Field K] [LinearOrder K]

/-- Where a position lies along columns that follow one another. The first column goes on to its left,
and full columns follow the last one. -/
def along (full : K) : List K → K → K
  | [], u => u * full
  | w :: widths, u => if u < 1 then u * w else w + along full widths (u - 1)

variable [IsStrictOrderedRing K] {full u : K} {widths : List K}

theorem along_zero (full : K) (widths : List K) : along full widths 0 = 0 := by
  cases widths with
  | nil => exact zero_mul full
  | cons w widths => rw [along, if_pos one_pos, zero_mul]

theorem strictMono_along (hFull : 0 < full) (h : ∀ w ∈ widths, 0 < w) :
    StrictMono (along full widths) := by
  induction widths with
  | nil => exact fun u v huv => mul_lt_mul_of_pos_right huv hFull
  | cons w widths ih =>
      obtain ⟨hFirst, hRest⟩ := List.forall_mem_cons.mp h
      intro u v huv
      rw [along, along]
      split_ifs with hu hv hv
      · exact mul_lt_mul_of_pos_right huv hFirst
      · have hNext : 0 ≤ along full widths (v - 1) := by
          rw [← along_zero full widths]
          exact (ih hRest).monotone (sub_nonneg.mpr (not_lt.mp hv))
        exact (mul_lt_of_lt_one_left hFirst hu).trans_le (le_add_of_nonneg_right hNext)
      · exact absurd (huv.trans hv) hu
      · exact add_lt_add_right (ih hRest (sub_lt_sub_right huv 1)) w

/-- Within a column its width counts as far as the position has come in it. -/
theorem along_of_within {i : Nat} (hi : i < widths.length) (hFrom : i = 0 ∨ i ≤ u)
    (hTo : u < i + 1) : along full widths u = (widths.take i).sum + (u - i) * widths[i] := by
  induction widths generalizing i u with
  | nil => cases hi
  | cons w widths ih =>
      cases i with
      | zero =>
          rw [along, if_pos (by simpa using hTo)]
          simp
      | succ i =>
          have hPast : (i : K) + 1 ≤ u := by simpa using hFrom
          have hFirst : ¬ u < 1 := not_lt.mpr (le_trans (by simp) hPast)
          rw [along, if_neg hFirst, ih (Nat.lt_of_succ_lt_succ hi) (.inr (le_sub_iff_add_le.mpr hPast))
            (by push_cast at hTo; linarith), List.take_succ_cons, List.sum_cons, List.getElem_cons_succ]
          push_cast
          ring

theorem along_of_beyond (h : widths.length ≤ u) :
    along full widths u = widths.sum + (u - widths.length) * full := by
  induction widths generalizing u with
  | nil => simp [along]
  | cons w widths ih =>
      have hPast : (widths.length : K) + 1 ≤ u := by simpa using h
      have hFirst : ¬ u < 1 := not_lt.mpr (le_trans (by simp) hPast)
      rw [along, if_neg hFirst, ih (le_sub_iff_add_le.mpr hPast), List.sum_cons, List.length_cons]
      push_cast
      ring

variable [FloorRing K] [Scalar K] [ExactScalar K] (o : Options K)

theorem beyond_ofWidths (h : widths.length ≤ u) :
    (ofWidths o widths).beyond u = along o.scaledCycleWidth widths u := by
  rw [along_of_beyond h, beyond, width_ofWidths, Scalar.whole_eq, Int.cast_natCast]
  rfl

/-- A position before the end lies in the column of the whole cycles before it. -/
theorem within_ofWidths (hSome : widths ≠ []) (h : u < widths.length) :
    ⌊u⌋₊ < widths.length ∧
      (ofWidths o widths).within ⌊u⌋₊ u = along o.scaledCycleWidth widths u := by
  have hColumns : 0 < widths.length := List.length_pos_iff.mpr hSome
  have hIn : ⌊u⌋₊ < widths.length := (Nat.floor_lt' hColumns.ne').mpr h
  have hFrom : ⌊u⌋₊ = 0 ∨ (⌊u⌋₊ : K) ≤ u :=
    (le_total u 0).imp Nat.floor_of_nonpos Nat.floor_le
  have hWidth : (ofWidths o widths).columnWidth ⌊u⌋₊ = widths[⌊u⌋₊] := by
    simp [columnWidth, ofWidths, hIn]
  refine ⟨hIn, ?_⟩
  rw [within, offset_ofWidths o widths hIn.le, hWidth, Scalar.whole_eq, Int.cast_natCast,
    along_of_within hIn hFrom (Nat.lt_floor_add_one u)]

omit [Scalar K] [ExactScalar K] in
theorem toNat_truncate (u : K) : (if 0 ≤ u then ⌊u⌋ else ⌈u⌉).toNat = ⌊u⌋₊ := by
  split_ifs with hFrom
  · exact Int.floor_toNat u
  · have hBefore : u ≤ 0 := (not_le.mp hFrom).le
    rw [Nat.floor_of_nonpos hBefore, Int.toNat_of_nonpos (Int.ceil_le.mpr (by simpa using hBefore))]

/-- The lookup of one position walks along the columns. -/
theorem xAt_ofWidths_eq_along (hSome : widths ≠ []) (u : K) :
    (ofWidths o widths).xAt u = .ok (along o.scaledCycleWidth widths u) := by
  have hTotal : (ofWidths o widths).total = widths.length := rfl
  rw [xAt, hTotal, if_neg (List.length_pos_iff.mpr hSome).ne']
  split_ifs with hPast
  · rw [beyond_ofWidths o (by simpa using hPast)]
    rfl
  · rw [ExactScalar.truncate_eq, ok_bind, toNat_truncate,
      (within_ofWidths o hSome (by simpa using hPast)).2]
    rfl

theorem columnOf_eq {g : Grid K} (h : ⌊u⌋₊ < g.total) : g.columnOf u = ⌊u⌋₊ := by
  rw [columnOf, Scalar.whole_eq, Int.cast_zero, ExactScalar.floor_eq]
  split_ifs with hBefore
  · exact (Nat.floor_of_nonpos hBefore.le).symm
  · change min ⌊u⌋.toNat (g.total - 1) = ⌊u⌋₊
    rw [Int.floor_toNat, Nat.min_eq_left (Nat.le_sub_one_of_lt h)]

/-- So does the lookup of many positions. -/
theorem xsAt_ofWidths_eq_along (hSome : widths ≠ []) (us : List K) :
    (ofWidths o widths).xsAt us = .ok (us.map (along o.scaledCycleWidth widths)) := by
  have hTotal : (ofWidths o widths).total = widths.length := rfl
  rw [xsAt, List.map_id'' ExactScalar.toFraction_eq, Scalar.allChecked_eq, ok_bind, hTotal,
    if_neg (List.length_pos_iff.mpr hSome).ne']
  refine congrArg Except.ok (List.map_congr_left fun u _ => ?_)
  split_ifs with hPast
  · exact beyond_ofWidths o (by simpa using hPast)
  · obtain ⟨hColumn, hWithin⟩ := within_ofWidths o hSome (by simpa using hPast)
    rw [columnOf_eq (hColumn.trans_eq hTotal.symm), hWithin]

variable {o} {signals : List (Compiled K)} {g : Grid K}

/-- The time axis is an increasing map. Its two lookups agree at all positions; on an axis with columns
a border between cycles lies at the offset of its column, and a later position lies further to the
right, be it before the first column, within one or past the last one. -/
theorem positions_increase (hOptions : o.Accepted) (h : build signals o = .ok g) :
    (∀ us : List K, ∃ xs, g.xsAt us = .ok xs ∧ List.Forall₂ (fun u x => g.xAt u = .ok x) us xs) ∧
      (0 < g.total →
        (∀ i ≤ g.total, ∃ x, g.offsets[i]? = some x ∧ g.xAt (Scalar.whole i) = .ok x) ∧
        ∀ u v : K, u < v → ∃ x y, g.xAt u = .ok x ∧ g.xAt v = .ok y ∧ x < y) := by
  obtain ⟨widths, hWidths, rfl⟩ := of_build h
  obtain ⟨_, hWide⟩ := wide_of_columnWidths hOptions hWidths
  refine ⟨fun us => ?_, fun hColumns => ?_⟩
  · rcases eq_or_ne widths [] with rfl | hSome
    · refine ⟨us.map fun _ => Scalar.zero, ?_, ?_⟩
      · rw [xsAt, List.map_id'' ExactScalar.toFraction_eq, Scalar.allChecked_eq]
        rfl
      · rw [List.forall₂_map_right_iff, List.forall₂_same]
        exact fun u _ => rfl
    · refine ⟨_, xsAt_ofWidths_eq_along o hSome us, ?_⟩
      rw [List.forall₂_map_right_iff, List.forall₂_same]
      exact fun u _ => xAt_ofWidths_eq_along o hSome u
  · have hSome : widths ≠ [] := List.length_pos_iff.mp hColumns
    have hFull : 0 < o.scaledCycleWidth := mul_pos hOptions.cycleWidth hOptions.hscale
    refine ⟨fun i hi => ⟨_, getElem?_offsets_ofWidths o widths hi, xAt_ofWidths o widths hi⟩,
      fun u v huv => ⟨_, _, xAt_ofWidths_eq_along o hSome u, xAt_ofWidths_eq_along o hSome v, ?_⟩⟩
    exact strictMono_along hFull (fun w hw => (hWide w hw).1) huv

/-- A position before the axis, one within the column that has shrunk and one past it. -/
theorem positions_increase_repeat :
    Options.narrow.Accepted ∧ ∃ g, build [.held] Options.narrow = .ok g ∧
      ∃ x y z, g.xsAt [-(1 / 2), 3 / 2, 3] = .ok [x, y, z] ∧ x < y ∧ y < z := by
  have hBuild := build_eq [.held] Options.accepted_narrow
  obtain ⟨hLookups, hMap⟩ := positions_increase Options.accepted_narrow hBuild
  have hIncrease := (hMap Nat.zero_lt_two).2
  obtain ⟨xs, hxs, hSame⟩ := hLookups [-(1 / 2), 3 / 2, 3]
  obtain ⟨x, y, hx, hy, hxy⟩ := hIncrease (-(1 / 2)) (3 / 2) (by norm_num)
  obtain ⟨_, z, hy', hz, hyz⟩ := hIncrease (3 / 2) 3 (by norm_num)
  simp only [List.forall₂_cons_left_iff, List.forall₂_nil_left_iff, hx, hy, hz, Except.ok.injEq] at hSame
  obtain ⟨_, _, rfl, ⟨_, _, rfl, ⟨_, _, rfl, rfl, rfl⟩, rfl⟩, rfl⟩ := hSame
  rw [hy, Except.ok.injEq] at hy'
  exact ⟨Options.accepted_narrow, _, hBuild, x, y, z, hxs, hxy, hy' ▸ hyz⟩

end Grid
end TimingDiagram
