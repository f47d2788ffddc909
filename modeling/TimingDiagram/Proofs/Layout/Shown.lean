import TimingDiagram.Proofs.Document.Mapping
import TimingDiagram.Proofs.Layout.Block

/-! What a layout takes of a compiled signal. Two documents whose compiled signals show the same
have the same layout, however their waves are written. The time axis and the places of the names take
less of it: neither the segments nor the anchors. -/
namespace TimingDiagram

/-- What a lane shows of its signal. -/
structure Shown (K : Type) where
  name : String
  period : Nat
  phase : K
  segments : List Segment
  length : Nat
  /-- For each cycle, whether the signal lets its column shrink. -/
  marks : List Bool

/-- What the time axis and the places of the names take of a signal. -/
structure Footprint where
  name : String
  length : Nat
  /-- For each cycle, whether the signal lets its column shrink. -/
  marks : List Bool

/-- What a lane shows includes its footprint. -/
def Shown.footprint {K : Type} (s : Shown K) : Footprint := ⟨s.name, s.length, s.marks⟩

namespace Compiled

variable {K : Type} {s t : Compiled K} {signals others : List (Compiled K)}

def footprint (s : Compiled K) : Footprint :=
  ⟨s.signal.name, s.length, cycleMarks s.signal.period s.tokens s.length⟩

theorem footprint_inj_iff : s.footprint = t.footprint ↔
    s.signal.name = t.signal.name ∧ s.length = t.length ∧
      cycleMarks s.signal.period s.tokens s.length =
        cycleMarks t.signal.period t.tokens t.length := by
  rw [footprint, footprint, Footprint.mk.injEq]

def shown (s : Compiled K) : Shown K :=
  ⟨s.signal.name, s.signal.period, s.signal.phase, s.segments, s.length,
    cycleMarks s.signal.period s.tokens s.length⟩

theorem shown_inj_iff : s.shown = t.shown ↔
    s.signal.name = t.signal.name ∧ s.signal.period = t.signal.period ∧
      s.signal.phase = t.signal.phase ∧ s.segments = t.segments ∧ s.length = t.length ∧
      cycleMarks s.signal.period s.tokens s.length =
        cycleMarks t.signal.period t.tokens t.length := by
  rw [shown, shown, Shown.mk.injEq]

theorem shrinkMarks_congr (h : s.footprint = t.footprint) (total : Nat) :
    s.shrinkMarks total = t.shrinkMarks total := by
  obtain ⟨_, hLength, hMarks⟩ := footprint_inj_iff.mp h
  rw [shrinkMarks, shrinkMarks, hMarks, hLength]

/-- What is taken of each of some signals is taken of their footprints. -/
theorem map_congr_footprint {α : Type} {f : Compiled K → α}
    (hf : ∀ s t : Compiled K, s.footprint = t.footprint → f s = f t)
    (h : signals.map footprint = others.map footprint) : signals.map f = others.map f := by
  induction signals generalizing others with
  | nil =>
      rw [List.map_nil, eq_comm, List.map_eq_nil_iff] at h
      rw [h]
  | cons s signals ih =>
      obtain ⟨t, others, rfl, hFirst, hRest⟩ := List.map_eq_cons_iff.mp h.symm
      rw [List.map_cons, List.map_cons, hf s t hFirst.symm, ih hRest.symm]

theorem longest_congr (h : signals.map footprint = others.map footprint) :
    longest signals = longest others := by
  rw [longest, longest, map_congr_footprint (fun _ _ h => (footprint_inj_iff.mp h).2.1) h]

theorem shrinkable_congr (h : signals.map footprint = others.map footprint) (total : Nat) :
    shrinkable signals total = shrinkable others total := by
  have hMarks := map_congr_footprint (fun _ _ h => shrinkMarks_congr h total) h
  have hFold := congrArg (List.foldl (List.zipWith (· && ·)) (List.replicate total true)) hMarks
  rwa [List.foldl_map, List.foldl_map] at hFold

end Compiled

variable {K : Type} [Add K] [Sub K] [Mul K] [Div K] [LT K] [LE K] [DecidableLT K] [DecidableLE K]
  [Scalar K]

namespace Frame

variable (f : Frame K) {s t : Compiled K}

theorem placeSegment_congr (h : s.shown = t.shown) (seg : Segment) :
    f.placeSegment s seg = f.placeSegment t seg := by
  obtain ⟨_, hPeriod, hPhase, _, hLength, _⟩ := Compiled.shown_inj_iff.mp h
  have hMark : f.placeGapMark s = f.placeGapMark t := by
    funext gap
    rw [placeGapMark, placeGapMark, hPeriod, hLength]
  rw [placeSegment, placeSegment, placePulses, placePulses, hPeriod, hPhase, hMark]

theorem placeSignal_congr (h : s.shown = t.shown) (slot depth : Nat) (top : K) :
    f.placeSignal s slot depth top = f.placeSignal t slot depth top := by
  obtain ⟨hName, _, _, hSegments, hLength, _⟩ := Compiled.shown_inj_iff.mp h
  have hPlace : f.placeSegment s = f.placeSegment t := funext (f.placeSegment_congr h)
  have hAnchors : anchorOf (K := K) s = anchorOf t := by
    funext slot middle placed
    rw [anchorOf, anchorOf, hName]
  rw [placeSignal, placeSignal, hName, hSegments, hLength, hPlace, hAnchors]

mutual

theorem placeItem_congr (depth : Nat) {item other : Item (Compiled K)}
    (h : item.map Compiled.shown = other.map Compiled.shown) (c : Cursor K) :
    f.placeItem depth item c = f.placeItem depth other c := by
  cases item with
  | signal s =>
      obtain ⟨t, rfl, hShown⟩ := Item.map_eq_signal h.symm
      rw [placeItem, placeItem, f.placeSignal_congr hShown.symm]
  | spacer => rw [Item.map_eq_spacer h.symm]
  | group label members =>
      obtain ⟨others, rfl, hMembers⟩ := Item.map_eq_group h.symm
      have hLanes := congrArg Item.lanesAll hMembers
      rw [Item.lanesAll_mapAll, Item.lanesAll_mapAll] at hLanes
      simp only [placeItem, hLanes, placeItems_congr (depth + 1) hMembers.symm]

/-- Lanes are placed by what they show. -/
theorem placeItems_congr (depth : Nat) {items others : List (Item (Compiled K))}
    (h : Item.mapAll Compiled.shown items = Item.mapAll Compiled.shown others) (c : Cursor K) :
    f.placeItems depth items c = f.placeItems depth others c := by
  cases items with
  | nil => rw [Item.mapAll_eq_nil h.symm]
  | cons item rest =>
      obtain ⟨other, others, rfl, hItem, hRest⟩ := Item.mapAll_eq_cons h.symm
      simp only [placeItems, placeItem_congr depth hItem.symm, placeItems_congr depth hRest.symm]

end

end Frame

namespace Layout

variable [Max K] [Min K] (o : Options K) {items others : List (Item (Compiled K))}

omit [Sub K] [Div K] [LE K] [DecidableLE K] in
theorem frameOf_congr
    (h : Item.mapAll Compiled.footprint items = Item.mapAll Compiled.footprint others) :
    frameOf o items = frameOf o others := by
  have hSignals := congrArg Item.leavesAll h
  rw [Item.leavesAll_mapAll, Item.leavesAll_mapAll] at hSignals
  have hDepth := congrArg Item.laneDepth h
  rw [Item.laneDepth_mapAll, Item.laneDepth_mapAll] at hDepth
  have hWidths := Compiled.map_congr_footprint (f := fun s => o.textWidth s.signal.name)
    (fun s t h => by rw [(Compiled.footprint_inj_iff.mp h).1]) hSignals
  have hEmpty : (Item.leavesAll items).isEmpty = (Item.leavesAll others).isEmpty := by
    simpa using congrArg List.isEmpty hSignals
  simp only [frameOf, Item.signals_eq_leavesAll, Grid.build, Grid.columnWidths,
    Compiled.longest_congr hSignals, Compiled.shrinkable_congr hSignals, hDepth, hWidths, hEmpty]

theorem ofItems_congr (h : Item.mapAll Compiled.shown items = Item.mapAll Compiled.shown others)
    (head foot : Option Caption) : ofItems o items head foot = ofItems o others head foot := by
  have hFootprints :
      Item.mapAll Compiled.footprint items = Item.mapAll Compiled.footprint others := by
    have hSame := congrArg (Item.mapAll Shown.footprint) h
    rwa [Item.mapAll_mapAll, Item.mapAll_mapAll] at hSame
  simp only [ofItems, frameOf_congr o hFootprints, Frame.placeItems_congr _ 0 h]

theorem compute_congr (h : Item.mapAll Compiled.shown items = Item.mapAll Compiled.shown others)
    (head foot : Option Caption) : compute o items head foot = compute o others head foot := by
  rw [compute, compute, ofItems_congr o h]

end Layout
end TimingDiagram
