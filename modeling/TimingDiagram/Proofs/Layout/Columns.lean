import Mathlib.Algebra.Order.BigOperators.Group.List
import TimingDiagram.Proofs.Layout.Axis

/-! The columns of the time axis in exact arithmetic. Their widths lie between the least width that
the options allow and that of a full column, and grow with the fraction that columns shrink to. -/
namespace TimingDiagram

variable {K : Type} [Field K] [LinearOrder K]

/-- The sums of ever more positive numbers increase. -/
theorem increasing_runningSums [IsStrictOrderedRing K] {widths : List K} (h : ∀ w ∈ widths, 0 < w)
    (start : K) :
    (runningSums start widths).Pairwise (· < ·) ∧ ∀ x ∈ runningSums start widths, start ≤ x := by
  induction widths generalizing start with
  | nil => simp [runningSums]
  | cons w widths ih =>
      obtain ⟨hFirst, hRest⟩ := List.forall_mem_cons.mp h
      obtain ⟨hOrder, hFrom⟩ := ih hRest (start + w)
      have hNext : start < start + w := lt_add_of_pos_right start hFirst
      rw [runningSums, List.pairwise_cons]
      exact ⟨⟨fun x hx => hNext.trans_le (hFrom x hx), hOrder⟩,
        List.forall_mem_cons.mpr ⟨le_rfl, fun x hx => hNext.le.trans (hFrom x hx)⟩⟩

variable [Scalar K]

namespace Grid

theorem markedWidth_le (o : Options K) (mark : Bool) : markedWidth o mark ≤ o.scaledCycleWidth := by
  cases mark with
  | true => exact min_le_right _ _
  | false => exact le_rfl

/-- A column does not shrink below the least width of a break. -/
theorem minGapWidth_le_markedWidth (o : Options K) : o.minGapWidth ≤ markedWidth o true :=
  le_min (le_max_right _ _) (min_le_right _ _)

variable [IsStrictOrderedRing K]

theorem markedWidth_mono {o : Options K} (h : o.Accepted) {shrink : K} (hShrink : o.gapShrink ≤ shrink)
    (mark : Bool) : markedWidth o mark ≤ markedWidth { o with gapShrink := shrink } mark := by
  have hFull : 0 < o.scaledCycleWidth := mul_pos h.cycleWidth h.hscale
  cases mark with
  | true =>
      exact min_le_min_right _ (max_le_max_right _ (mul_le_mul_of_nonneg_left hShrink hFull.le))
  | false => exact le_rfl

theorem forall₂_markedWidth_mono {o : Options K} (h : o.Accepted) {shrink : K}
    (hShrink : o.gapShrink ≤ shrink) (marks : List Bool) :
    List.Forall₂ (· ≤ ·) (marks.map (markedWidth o))
      (marks.map (markedWidth { o with gapShrink := shrink })) := by
  rw [List.forall₂_map_left_iff, List.forall₂_map_right_iff, List.forall₂_same]
  exact fun mark _ => markedWidth_mono h hShrink mark

variable [FloorRing K] [ExactScalar K] {o : Options K}

/-- An axis has its columns as they are marked. -/
theorem build_eq (signals : List (Compiled K)) (h : o.Accepted) : build signals o = .ok (ofWidths o
    ((Compiled.shrinkable signals (Compiled.longest signals)).map (markedWidth o))) := by
  rw [build, columnWidths_eq h]
  rfl

/-- The columns of an axis have the widths that the options allow. A column that some signal keeps is
full, and one that shrinks is not narrower than the least width of a break; the offsets of the columns
are the sums of the widths before them. Where columns shrink to a larger fraction, or not at all, none
of them is narrower. -/
theorem build_bounds_columns (signals : List (Compiled K)) (hOptions : o.Accepted) :
    let total := Compiled.longest signals
    let marks := Compiled.shrinkable signals total
    let full := o.cycleWidth * o.hscale
    ∃ g : Grid K, build signals o = .ok g ∧ g.total = total ∧ marks.length = total ∧
      (∀ (i : Nat) w, g.widths[i]? = some w → 0 < w ∧ w ≤ full ∧ o.transitionOffset * 2 ≤ w ∧
        (marks[i]? = some false → w = full) ∧
        (marks[i]? = some true → min (max o.gapMinWidth (o.transitionOffset * 2)) full ≤ w)) ∧
      g.offsets.size = total + 1 ∧
      (∀ i ≤ total, g.offsets[i]? = some (g.widths.toList.take i).sum) ∧
      g.offsets.toList.Pairwise (· < ·) ∧
      ∀ wider : Options K, wider.Accepted → wider = { o with gapShrink := wider.gapShrink } →
        o.gapShrink ≤ wider.gapShrink → ∃ h : Grid K, build signals wider = .ok h ∧
          List.Forall₂ (· ≤ ·) g.widths.toList h.widths.toList ∧ g.width ≤ h.width := by
  intro total marks full
  have hMarks : marks.length = total :=
    Compiled.length_shrinkable fun s hs => Compiled.length_le_longest hs
  obtain ⟨hLength, hWide⟩ := wide_of_columnWidths hOptions (columnWidths_eq hOptions)
  refine ⟨_, build_eq signals hOptions, hLength, hMarks, fun i w hw => ?_, ?_, fun i hi => ?_, ?_,
    fun wider hWider hSame hShrink => ?_⟩
  · have hAt : (marks.map (markedWidth o))[i]? = some w := by simpa [ofWidths] using hw
    rw [List.getElem?_map, Option.map_eq_some_iff] at hAt
    obtain ⟨mark, hMark, rfl⟩ := hAt
    obtain ⟨hPositive, hCrossing⟩ := markedWidth_wide hOptions mark
    refine ⟨hPositive, markedWidth_le o mark, hCrossing, fun hKept => ?_, fun hShrinks => ?_⟩
    · rw [hMark, Option.some.injEq] at hKept
      rw [hKept]
      rfl
    · rw [hMark, Option.some.injEq] at hShrinks
      have hLeast := minGapWidth_le_markedWidth o
      rw [Options.minGapWidth, Scalar.whole_eq, Int.cast_ofNat] at hLeast
      rw [hShrinks]
      exact hLeast
  · rw [ofWidths, List.size_toArray, length_runningSums, List.length_map, hMarks]
  · exact getElem?_offsets_ofWidths o _ (hi.trans_eq hLength.symm)
  · exact (increasing_runningSums (fun w hw => (hWide w hw).1) _).1
  · obtain ⟨shrink, rfl⟩ : ∃ shrink, wider = { o with gapShrink := shrink } := ⟨_, hSame⟩
    have hColumns := forall₂_markedWidth_mono hOptions hShrink marks
    refine ⟨_, build_eq signals hWider, hColumns, ?_⟩
    rw [width_ofWidths, width_ofWidths]
    exact hColumns.sum_le_sum

end Grid

/-- Default options, but for columns that shrink to a quarter. -/
noncomputable def Options.narrow : Options ℝ := { Options.default with gapShrink := 1 / 4 }

theorem Options.accepted_narrow : Options.narrow.Accepted := by
  have h : (Options.default : Options ℝ).Accepted := Options.accepted_default
  exact ⟨h.cycleWidth, h.hscale, by norm_num [narrow], h.waveHeight, h.transition, h.colours⟩

/-- A signal of one symbol and its repeat. -/
def Compiled.held : Compiled ℝ where
  signal := { name := "a", wave := "0.", phase := 0 }
  tokens := [⟨0, '0', .low, .low, none, 0, none, none⟩,
    ⟨1, '.', .again, .low, some .low, 0, none, none⟩]
  segments := []
  length := 2

namespace Grid

/-- The column of a repeat shrinks to the least width of a break, and not below it. -/
theorem build_bounds_columns_repeat :
    Options.narrow.Accepted ∧ ∃ g, build [.held] Options.narrow = .ok g ∧ g.total = 2 ∧
      g.widths[0]? = some 48 ∧ (∀ w, g.widths[1]? = some w → 16 ≤ w ∧ w ≤ 48) ∧
      ∃ h, build [.held] Options.default = .ok h ∧ g.width ≤ h.width := by
  have hFull : Options.narrow.cycleWidth * Options.narrow.hscale = 48 := by
    norm_num [Options.narrow, Options.default]
  have hLeast : min (max Options.narrow.gapMinWidth (Options.narrow.transitionOffset * 2)) 48 = 16 := by
    norm_num [Options.narrow, Options.default]
  obtain ⟨g, hBuild, hTotal, _, hColumns, _, _, _, hWider⟩ :=
    build_bounds_columns [.held] Options.accepted_narrow
  obtain ⟨h, hOther, _, hWidth⟩ := hWider Options.default Options.accepted_default rfl
    (by norm_num [Options.narrow, Options.default])
  rw [hFull] at hColumns
  refine ⟨Options.accepted_narrow, g, hBuild, hTotal, ?_, fun w hw => ?_, h, hOther, hWidth⟩
  · have hFirst : 0 < g.widths.size := Nat.zero_lt_two.trans_eq hTotal.symm
    have hAt := Array.getElem?_eq_getElem hFirst
    rw [hAt, (hColumns 0 _ hAt).2.2.2.1 rfl]
  · obtain ⟨_, hMost, _, _, hShrinks⟩ := hColumns 1 w hw
    exact ⟨hLeast.symm.trans_le (hShrinks rfl), hMost⟩

end Grid
end TimingDiagram
