import Mathlib.Algebra.BigOperators.Group.List.Basic
import TimingDiagram.Proofs.Document.Loading
import TimingDiagram.Proofs.Layout.Segments

/-! The time axis in exact arithmetic. A border between cycles lies at the sum of the columns before
it, and no column shrinks below the width of a crossing. -/
namespace TimingDiagram

theorem length_cycleMarks (period : Nat) (tokens : List Token) (length : Nat) :
    (cycleMarks period tokens length).length = length := by
  induction tokens generalizing length with
  | nil => exact List.length_replicate
  | cons t rest ih =>
      rw [cycleMarks, List.length_append, List.length_replicate, ih]
      omega

namespace Compiled

variable {K : Type} {signals : List (Compiled K)} {s : Compiled K}

theorem longest_le_iff {n : Nat} : longest signals ≤ n ↔ ∀ s ∈ signals, s.length ≤ n := by
  have hFrom (most : Nat) : (signals.map length).foldl max most ≤ n ↔
      most ≤ n ∧ ∀ s ∈ signals, s.length ≤ n := by
    induction signals generalizing most with
    | nil => simp
    | cons s rest ih =>
        rw [List.map_cons, List.foldl_cons, ih, max_le_iff, List.forall_mem_cons, and_assoc]
  rw [longest, hFrom, and_iff_right n.zero_le]

theorem length_le_longest (h : s ∈ signals) : s.length ≤ longest signals :=
  longest_le_iff.mp le_rfl s h

theorem length_shrinkMarks {total : Nat} (h : s.length ≤ total) :
    (s.shrinkMarks total).length = total := by
  rw [shrinkMarks, List.length_append, length_cycleMarks, List.length_replicate]
  omega

theorem length_shrinkable {total : Nat} (h : ∀ s ∈ signals, s.length ≤ total) :
    (shrinkable signals total).length = total := by
  rw [shrinkable]
  generalize hMarks : List.replicate total true = marks
  have hLength : marks.length = total := by rw [← hMarks, List.length_replicate]
  clear hMarks
  induction signals generalizing marks with
  | nil => exact hLength
  | cons s signals ih =>
      obtain ⟨hFirst, hRest⟩ := List.forall_mem_cons.mp h
      rw [List.foldl_cons]
      refine ih hRest _ ?_
      rw [List.length_zipWith, hLength, length_shrinkMarks hFirst, Nat.min_self]

end Compiled

theorem length_runningSums {K : Type} [Add K] (start : K) (widths : List K) :
    (runningSums start widths).length = widths.length + 1 := by
  induction widths generalizing start with
  | nil => rfl
  | cons w widths ih => rw [runningSums, List.length_cons, ih, List.length_cons]

variable {K : Type} [Field K]

theorem getElem?_runningSums (start : K) (widths : List K) {i : Nat} (h : i ≤ widths.length) :
    (runningSums start widths)[i]? = some (start + (widths.take i).sum) := by
  induction widths generalizing start i with
  | nil =>
      obtain rfl := Nat.le_zero.mp h
      simp [runningSums]
  | cons w widths ih =>
      rw [runningSums]
      cases i with
      | zero => simp
      | succ i =>
          rw [List.getElem?_cons_succ, ih _ (Nat.le_of_succ_le_succ h), List.take_succ_cons,
            List.sum_cons, add_assoc]

variable [LinearOrder K] [IsStrictOrderedRing K]

/-- Of some columns that are not narrower than a width, more are wider by at least that width. -/
theorem sum_take_add_le {widths : List K} {least : K} (hLeast : 0 ≤ least)
    (h : ∀ w ∈ widths, least ≤ w) {i j : Nat} (hij : i < j) (hj : j ≤ widths.length) :
    (widths.take i).sum + least ≤ (widths.take j).sum := by
  induction j, hij using Nat.le_induction with
  | base =>
      rw [List.sum_take_succ widths i hj]
      exact add_le_add_right (h _ (List.getElem_mem hj)) _
  | succ j _ ih =>
      rw [List.sum_take_succ widths j hj]
      exact (ih (Nat.le_of_succ_le hj)).trans
        (le_add_of_nonneg_right (hLeast.trans (h _ (List.getElem_mem hj))))

variable [FloorRing K] [Scalar K] [ExactScalar K]

namespace Grid

section Borders

variable (o : Options K) (widths : List K)

theorem getElem?_offsets_ofWidths {i : Nat} (h : i ≤ widths.length) :
    (ofWidths o widths).offsets[i]? = some (widths.take i).sum := by
  rw [ofWidths, List.getElem?_toArray, getElem?_runningSums _ _ h, Scalar.zero_eq, zero_add]

theorem offset_ofWidths {i : Nat} (h : i ≤ widths.length) :
    (ofWidths o widths).offset i = (widths.take i).sum := by
  rw [offset, Array.getD_eq_getD_getElem?, getElem?_offsets_ofWidths o widths h, Option.getD_some]

theorem width_ofWidths : (ofWidths o widths).width = widths.sum := by
  rw [width, ofWidths, List.back?_toArray, List.getLast?_eq_getElem?, length_runningSums,
    Nat.add_sub_cancel, getElem?_runningSums _ _ le_rfl, List.take_length, Scalar.zero_eq, zero_add]
  rfl

/-- A border between cycles lies at the end of the columns before it. -/
theorem xAt_ofWidths {i : Nat} (h : i ≤ widths.length) :
    (ofWidths o widths).xAt (Scalar.whole i) = .ok (widths.take i).sum := by
  have hTotal : (ofWidths o widths).total = widths.length := rfl
  rw [xAt, hTotal]
  split_ifs with hNone hPast
  · rw [List.length_eq_zero_iff.mp hNone, List.take_nil, List.sum_nil, Scalar.zero_eq]
    rfl
  · have hLast : i = widths.length := by
      refine h.antisymm ?_
      simpa using hPast
    rw [beyond, width_ofWidths, hTotal, hLast, sub_self, zero_mul, add_zero, List.take_length]
    rfl
  · have hColumn : Scalar.truncate (Scalar.whole i : K) = .ok i := by simp
    rw [hColumn, ok_bind, within, Int.toNat_natCast, sub_self, zero_mul, add_zero,
      offset_ofWidths o widths h]
    rfl

end Borders

variable {o : Options K} {signals : List (Compiled K)} {widths : List K}

/-- The width of a column that is marked as one that shrinks, or is not. -/
def markedWidth (o : Options K) (mark : Bool) : K :=
  if mark then shrunkWidth o else o.scaledCycleWidth

/-- A column that has shrunk is not narrower than a crossing. -/
theorem shrunkWidth_wide (h : o.Accepted) :
    0 < shrunkWidth o ∧ o.transitionOffset * 2 ≤ shrunkWidth o := by
  have hFull : 0 < o.scaledCycleWidth := mul_pos h.cycleWidth h.hscale
  have hCrossing : o.transitionOffset * 2 ≤ o.scaledCycleWidth := h.transition
  have hLeast : o.transitionOffset * 2 ≤ o.minGapWidth := by
    rw [Options.minGapWidth, Scalar.whole_eq]
    exact le_min (by simp) hCrossing
  rw [shrunkWidth]
  constructor
  · exact lt_min (lt_max_of_lt_left (mul_pos hFull h.gapShrink.1)) hFull
  · exact le_min (le_max_of_le_right hLeast) hCrossing

omit [IsStrictOrderedRing K] [FloorRing K] [ExactScalar K] in
/-- A column that may shrink by nothing is a full one. -/
theorem shrunkWidth_of_one (h : o.gapShrink = 1) : shrunkWidth o = o.scaledCycleWidth := by
  rw [shrunkWidth, h, mul_one, Options.minGapWidth, max_eq_left (min_le_right _ _), min_self]

/-- The axis has a column for every cycle of the longest signal. -/
theorem length_of_columnWidths (h : columnWidths signals o = .ok widths) :
    widths.length = Compiled.longest signals := by
  simp only [columnWidths, ExactScalar.filled_eq, ExactScalar.checked_eq, ok_bind] at h
  split_ifs at h
  · cases h
    rw [List.length_zipWith, List.length_replicate,
      Compiled.length_shrinkable fun s hs => Compiled.length_le_longest hs, Nat.min_self]
  · cases h
    exact List.length_replicate

/-- A column is full where some signal keeps it, and has shrunk elsewhere. -/
theorem columnWidths_eq (hOptions : o.Accepted) : columnWidths signals o =
    .ok ((Compiled.shrinkable signals (Compiled.longest signals)).map (markedWidth o)) := by
  have hMarks : (Compiled.shrinkable signals (Compiled.longest signals)).length =
      Compiled.longest signals :=
    Compiled.length_shrinkable fun s hs => Compiled.length_le_longest hs
  simp only [columnWidths, ExactScalar.filled_eq, ExactScalar.checked_eq, ExactScalar.toFraction_eq,
    ok_bind]
  split_ifs with hSome
  · refine congrArg Except.ok (List.ext_getElem ?_ fun i hi hOther => ?_)
    · rw [List.length_zipWith, List.length_replicate, List.length_map, hMarks, Nat.min_self]
    · rw [List.getElem_zipWith, List.getElem_replicate, List.getElem_map, markedWidth]
  · refine congrArg Except.ok (List.eq_replicate_iff.mpr ⟨by rw [List.length_map, hMarks], ?_⟩).symm
    -- Either there is no column, or columns may shrink by nothing.
    intro w hw
    obtain ⟨mark, hMark, rfl⟩ := List.mem_map.mp hw
    have hColumn : 0 < Compiled.longest signals := hMarks ▸ List.length_pos_of_mem hMark
    have hWhole : o.gapShrink = 1 := by
      refine hOptions.gapShrink.2.antisymm ?_
      simpa [hColumn] using hSome
    rw [markedWidth, shrunkWidth_of_one hWhole, ite_self]

theorem markedWidth_wide (h : o.Accepted) (mark : Bool) :
    0 < markedWidth o mark ∧ o.transitionOffset * 2 ≤ markedWidth o mark := by
  cases mark with
  | true => exact shrunkWidth_wide h
  | false => exact ⟨mul_pos h.cycleWidth h.hscale, h.transition⟩

/-- No column is narrower than a crossing. -/
theorem wide_of_columnWidths (hOptions : o.Accepted) (h : columnWidths signals o = .ok widths) :
    widths.length = Compiled.longest signals ∧
      ∀ w ∈ widths, 0 < w ∧ o.transitionOffset * 2 ≤ w := by
  refine ⟨length_of_columnWidths h, fun w hw => ?_⟩
  rw [columnWidths_eq hOptions] at h
  obtain ⟨mark, _, rfl⟩ := List.mem_map.mp (Except.ok.inj h ▸ hw)
  exact markedWidth_wide hOptions mark

end Grid

namespace Frame

variable {f : Frame K} {widths : List K} {o : Options K} {items : List (Item (Compiled K))}

theorem xOf_border (hGrid : f.grid = Grid.ofWidths o widths) {i : Nat} (h : i ≤ widths.length) :
    f.xOf i = .ok (f.schemaX + (widths.take i).sum) := by
  rw [xOf, hGrid, Grid.xAt_ofWidths o widths h, ok_bind, ExactScalar.checked_eq]

/-- A placed segment has room for a crossing at both of its ends. -/
theorem Sets.roomy {c : Compiled K} {placed : PlacedSignal K} (h : f.Sets c placed)
    (hOwn : c.Genuine) (hOptions : o.Accepted) (hFrame : Layout.frameOf o items = .ok f)
    (hMem : c ∈ Item.leavesAll items) :
    ∀ p ∈ placed.segments, p.x₀ ≤ p.x₁ ∧ p.x₀ + o.transitionOffset * 2 ≤ p.x₁ := by
  obtain ⟨_, _, _, _, hPlaced⟩ := h
  obtain ⟨widths, hWidths, hGrid⟩ := of_frameOf hFrame
  obtain ⟨hLength, hWide⟩ := Grid.wide_of_columnWidths hOptions hWidths
  have hTiles := tiles_of_compile hOwn.period hOwn.compiles
  intro p hp
  obtain ⟨seg, hSeg, hPlaces⟩ := exists_of_mem_forall₂ (segments_of_placeSignal hPlaced) hp
  obtain ⟨hFrom, hCycles, hTo⟩ := hTiles.bounds seg hSeg
  have hFits : c.length ≤ widths.length := by
    rw [hLength]
    exact Compiled.length_le_longest (Item.signals_eq_leavesAll items ▸ hMem)
  obtain ⟨i, hStart⟩ := Int.eq_ofNat_of_zero_le hFrom
  obtain ⟨j, hStop⟩ := Int.eq_ofNat_of_zero_le (a := seg.stop) (by simp only [Segment.stop]; omega)
  have hBorders : i < j ∧ j ≤ widths.length := by
    simp only [Segment.stop] at hStop hTo
    omega
  have hx₀ := hPlaces.start
  have hx₁ := hPlaces.stop
  rw [hStart, xOf_border hGrid (by omega)] at hx₀
  rw [hStop, xOf_border hGrid (by omega)] at hx₁
  rw [← Except.ok.inj hx₀, ← Except.ok.inj hx₁]
  have hRoom := sum_take_add_le (le_max_left 0 (o.transitionOffset * 2))
    (fun w hw => max_le (hWide w hw).1.le (hWide w hw).2) hBorders.1 hBorders.2
  rw [add_assoc]
  exact ⟨add_le_add_right ((le_add_of_nonneg_right (le_max_left _ _)).trans hRoom) _,
    add_le_add_right ((add_le_add_right (le_max_right _ _) _).trans hRoom) _⟩

end Frame
end TimingDiagram
