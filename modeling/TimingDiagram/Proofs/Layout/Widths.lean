import TimingDiagram.Proofs.Layout.Axis
import TimingDiagram.Proofs.Number.Checked

/-! The widths of the lanes in exact arithmetic. A signal is as wide as the columns of its cycles, so
that the longest one is as wide as the time axis. -/
namespace TimingDiagram

/-- The largest of some values is a bound of them that is among them. -/
theorem Scalar.largest_eq {K : Type} [LinearOrder K] {default most : K} {xs : List K}
    (hNone : xs = [] → default = most) (hMem : xs ≠ [] → most ∈ xs) (hMost : ∀ x ∈ xs, x ≤ most) :
    largest default xs = most := by
  cases xs with
  | nil => exact hNone rfl
  | cons x rest =>
      have hMax := List.max?_eq_some_iff.mpr ⟨hMem (List.cons_ne_nil x rest), hMost⟩
      rw [List.max?_cons'] at hMax
      exact Option.some.inj hMax

theorem Compiled.exists_length_eq_longest {K : Type} {signals : List (Compiled K)}
    (h : signals ≠ []) : ∃ s ∈ signals, s.length = longest signals := by
  obtain ⟨s, rest, rfl⟩ := List.exists_cons_of_ne_nil h
  have hMax : ((s :: rest).map length).max? = some (longest (s :: rest)) := by
    rw [longest, List.map_cons, List.max?_cons', List.foldl_cons, Nat.zero_max]
  exact List.mem_map.mp (List.max?_mem hMax)

variable {K : Type} [Field K] [LinearOrder K] [IsStrictOrderedRing K] [FloorRing K] [Scalar K]
  [ExactScalar K]

namespace Frame

variable {f : Frame K} {o : Options K} {widths : List K} {c : Compiled K} {placed : PlacedSignal K}

/-- A signal goes from the start of the axis to the end of its last column. -/
theorem Sets.extent (h : f.Sets c placed) (hOwn : c.Genuine) (hGrid : f.grid = Grid.ofWidths o widths)
    (hFits : c.length ≤ widths.length) (hSome : placed.segments ≠ []) :
    placed.x₀ = f.schemaX ∧ placed.x₁ = f.schemaX + (widths.take c.length).sum := by
  obtain ⟨_, _, _, _, hPlaced⟩ := h
  have hPartition := (tiles_of_compile hOwn.period hOwn.compiles).partition
  rw [← (of_placeSignal hPlaced).segments] at hPartition
  have hPlaces := segments_of_placeSignal hPlaced
  obtain ⟨first, more, hAll⟩ := List.exists_cons_of_ne_nil hSome
  obtain ⟨last, hLast⟩ := Option.ne_none_iff_exists'.mp (mt List.getLast?_eq_none_iff.mp hSome)
  have hStart : first.segment.start = 0 := hPartition.first _ (by rw [hAll]; rfl)
  have hStop : last.segment.stop = c.length :=
    hPartition.last _ (by rw [List.getLast?_map, hLast]; rfl)
  have hFrom : f.xOf (0 : Nat) = .ok first.x₀ := by
    obtain ⟨seg, _, hPlace⟩ := exists_of_mem_forall₂ hPlaces (hAll ▸ List.mem_cons_self)
    rw [Nat.cast_zero, ← hStart, hPlace.segment, hPlace.start]
  have hTo : f.xOf c.length = .ok last.x₁ := by
    obtain ⟨seg, _, hPlace⟩ := exists_of_mem_forall₂ hPlaces (List.mem_of_getLast? hLast)
    rw [← hStop, hPlace.segment, hPlace.stop]
  rw [xOf_border hGrid (Nat.zero_le _), List.take_zero, List.sum_nil, add_zero] at hFrom
  rw [xOf_border hGrid hFits] at hTo
  have hx₀ : placed.x₀ = first.x₀ := by rw [PlacedSignal.x₀, hAll, List.head?_cons]
  have hx₁ : placed.x₁ = last.x₁ := by rw [PlacedSignal.x₁, hLast]
  rw [hx₀, hx₁, ← Except.ok.inj hFrom, ← Except.ok.inj hTo]
  exact ⟨rfl, rfl⟩

/-- A signal is as wide as its columns together. -/
theorem Sets.width (h : f.Sets c placed) (hOwn : c.Genuine) (hGrid : f.grid = Grid.ofWidths o widths)
    (hFits : c.length ≤ widths.length) : placed.width = (widths.take c.length).sum := by
  obtain ⟨hLength, hEmpty⟩ := h.length hOwn
  rw [PlacedSignal.width]
  split_ifs with hNone
  · rw [← hLength, hEmpty.mp (List.isEmpty_iff.mp hNone), List.take_zero, List.sum_nil, Scalar.zero_eq]
  · obtain ⟨hFrom, hTo⟩ := h.extent hOwn hGrid hFits (mt List.isEmpty_iff.mpr hNone)
    rw [hFrom, hTo, add_sub_cancel_left]

end Frame

namespace Layout

variable {d : Document K} {o : Options K} {l : Layout K} {frame : Frame K} {widths : List K}

/-- A layout over columns of some widths: the signals of its document, compiled, are set along them, and
there are no more of them than the longest signal takes. -/
structure Spreads (d : Document K) (o : Options K) (l : Layout K) (frame : Frame K) (widths : List K) :
    Prop where
  axis : frame.grid = Grid.ofWidths o widths
  grid : l.grid = frame.grid
  schemaX : l.schemaX = frame.schemaX
  width : l.width = l.schemaX + l.grid.width + o.paddingRight
  positive : ∀ w ∈ widths, 0 < w
  signals : List.Forall₂ (fun s placed => ∃ c : Compiled K, (c.signal = s ∧ c.Genuine) ∧
    c.length ≤ widths.length ∧ frame.Sets c placed) d.signals l.signals
  longest : widths = [] ∨ ∃ s ∈ l.signals, s.length = widths.length

theorem spreads_of_layout (hPeriods : ∀ s ∈ d.signals, 1 ≤ s.period) (hOptions : o.Accepted)
    (h : (d.layout o).outcome = .ok l) : ∃ frame widths, Spreads d o l frame widths := by
  obtain ⟨items, hItems, hLayout⟩ := Document.layout_eq_ok_iff.mp h
  obtain ⟨frame, start, block, past, hParts⟩ := assembles_of_ofItems (of_compute hLayout)
  obtain ⟨widths, hWidths, hAxis⟩ := Frame.of_frameOf hParts.framed
  obtain ⟨hTotal, hWide⟩ := Grid.wide_of_columnWidths hOptions hWidths
  rw [Item.signals_eq_leavesAll] at hTotal
  have hSets := Frame.sets_of_placeItems hParts.placed
  rw [← hParts.order, ← signals] at hSets
  have hGenuine := Document.genuine_of_compile hPeriods hItems
  refine ⟨frame, widths, {
    axis := hAxis
    grid := hParts.grid
    schemaX := hParts.schemaX
    width := CheckedScalar.eq_of_checked hParts.width
    positive := fun w hw => (hWide w hw).1
    signals := (forall₂_comp hGenuine hSets).imp ?_
    longest := ?_ }⟩
  · rintro s placed ⟨c, hc, hOwn, hSet⟩
    exact ⟨c, hOwn, hTotal ▸ Compiled.length_le_longest hc, hSet⟩
  · rcases eq_or_ne (Item.leavesAll items) [] with hNone | hSome
    · rw [hNone] at hTotal
      exact .inl (List.length_eq_zero_iff.mp hTotal)
    · obtain ⟨c, hc, hLongest⟩ := Compiled.exists_length_eq_longest hSome
      obtain ⟨s, hs, (hSet : frame.Sets c s)⟩ := exists_of_mem_forall₂ hSets.flip hc
      obtain ⟨_, _, _, hOwn⟩ := exists_of_mem_forall₂ hGenuine hc
      have hLength := (hSet.length hOwn).1
      exact .inr ⟨s, hs, by rw [hLength, hLongest, hTotal]⟩

namespace Spreads

omit [IsStrictOrderedRing K] [FloorRing K] [ExactScalar K] in
/-- The signals are placed with the lengths and the segments that they are compiled to. -/
theorem compiled (h : Spreads d o l frame widths) :
    List.Forall₂ (fun s placed => ∃ c : Compiled K, s.compile.outcome = .ok c ∧
        placed.length = c.length ∧ placed.segments.map PlacedSegment.segment = c.segments)
      d.signals l.signals := by
  refine h.signals.imp ?_
  rintro s placed ⟨c, ⟨rfl, hOwn⟩, _, hSet⟩
  obtain ⟨_, _, _, _, hPlaced⟩ := id hSet
  exact ⟨c, hOwn.compiles, (hSet.length hOwn).1, (Frame.of_placeSignal hPlaced).segments⟩

/-- The time axis is as wide as its columns together. -/
theorem gridWidth (h : Spreads d o l frame widths) : l.grid.width = widths.sum := by
  rw [h.grid, h.axis, Grid.width_ofWidths]

omit [FloorRing K] [ExactScalar K] in
/-- No columns are wider than all of them. -/
theorem sum_take_le (h : Spreads d o l frame widths) (n : Nat) : (widths.take n).sum ≤ widths.sum :=
  (List.take_sublist n widths).sum_le_sum fun w hw => (h.positive w hw).le

/-- What a signal takes of the time axis. -/
theorem extent (h : Spreads d o l frame widths) {s : PlacedSignal K} (hs : s ∈ l.signals) :
    s.length ≤ widths.length ∧ s.width = (widths.take s.length).sum ∧
      (s.segments = [] ↔ s.length = 0) ∧
      (s.segments ≠ [] → s.x₀ = l.schemaX ∧ s.x₁ = l.schemaX + (widths.take s.length).sum) := by
  obtain ⟨_, _, c, ⟨_, hOwn⟩, hFits, hSet⟩ := exists_of_mem_forall₂ h.signals hs
  obtain ⟨hLength, hEmpty⟩ := hSet.length hOwn
  rw [h.schemaX, hLength]
  exact ⟨hFits, hSet.width hOwn h.axis hFits, hLength ▸ hEmpty, hSet.extent hOwn h.axis hFits⟩

end Spreads

/-- The time axis of a layout is as wide as its columns together. Its longest signal has that
width, and no signal goes past its end. -/
theorem widths_of_layout (hPeriods : ∀ s ∈ d.signals, 1 ≤ s.period) (hOptions : o.Accepted)
    (h : (d.layout o).outcome = .ok l) :
    l.grid.width = l.grid.widths.toList.sum ∧
      Scalar.largest 0 (l.signals.map PlacedSignal.width) = l.grid.width ∧
      ∀ s ∈ l.signals, s.segments ≠ [] → s.x₁ ≤ l.schemaX + l.grid.width := by
  obtain ⟨frame, widths, hSpreads⟩ := spreads_of_layout hPeriods hOptions h
  have hOwn (w : K) (hw : w ∈ l.signals.map PlacedSignal.width) : w ≤ widths.sum := by
    obtain ⟨s, hs, rfl⟩ := List.mem_map.mp hw
    exact (hSpreads.extent hs).2.1.trans_le (hSpreads.sum_take_le _)
  rw [hSpreads.gridWidth]
  refine ⟨by rw [hSpreads.grid, hSpreads.axis]; rfl,
    Scalar.largest_eq (fun hNone => ?_) (fun hSome => ?_) hOwn, fun s hs hSome => ?_⟩
  · rcases hSpreads.longest with rfl | ⟨s, hs, _⟩
    · exact List.sum_nil.symm
    · exact absurd hs (by rw [List.map_eq_nil_iff.mp hNone]; exact List.not_mem_nil)
  · rcases hSpreads.longest with rfl | ⟨s, hs, hLongest⟩
    · obtain ⟨w, hw⟩ := List.exists_mem_of_ne_nil _ hSome
      obtain ⟨s, hs, rfl⟩ := List.mem_map.mp hw
      have hWidth := (hSpreads.extent hs).2.1
      rw [List.take_nil] at hWidth
      exact hWidth ▸ hw
    · refine List.mem_map.mpr ⟨s, hs, ?_⟩
      rw [(hSpreads.extent hs).2.1, hLongest, List.take_length]
  · rw [((hSpreads.extent hs).2.2.2 hSome).2]
    exact add_le_add_right (hSpreads.sum_take_le _) _

end Layout
end TimingDiagram
