import TimingDiagram.Proofs.Layout.Block
import TimingDiagram.Proofs.Number.Firm

/-! Placement that does not fail. Where the dimensions are firm and there are not too many cycles, every
coordinate that is checked is firm, and nothing of placement fails but the registration of the
anchors. -/
namespace TimingDiagram

open FirmScalar

variable {K : Type} [Add K] [Sub K] [Mul K] [Div K] [Max K] [Min K] [Scalar K] [FirmScalar K]

/-- Options whose numbers can be computed with. -/
structure Options.Steady (o : Options K) : Prop where
  number (key : NumberOption) : Firm (o.number key)
  divisor : Divisor o.scaledCycleWidth
  measure : ∀ measure ∈ o.measure, ∀ s, Operand (measure s o.fontSize)

/-- A compiled signal that there is room for, and whose clocks have their turns. -/
structure Compiled.Steady [LT K] [DecidableLT K] (s : Compiled K) : Prop where
  name : Small (K := K) s.signal.name.length
  length : Small (K := K) s.length
  columns : Storable (K := K) s.length
  spans : ∀ seg ∈ s.segments, Small (K := K) seg.start ∧ Small (K := K) seg.stop
  gaps : ∀ seg ∈ s.segments, ∀ gap ∈ seg.gaps,
    Small (K := K) gap ∧ Small (K := K) (min s.signal.period (s.length - gap))
  trains : ∀ seg ∈ s.segments, seg.kind = .clock → ∃ train : List (Pulse K),
    Pulse.train (Scalar.whole seg.cycles) (Scalar.whole s.signal.period) s.signal.phase
      seg.isRising = .ok train ∧ ∀ pulse ∈ train, Firm pulse.offset

/-- A time axis that can be computed with. -/
structure Grid.Steady (g : Grid K) : Prop where
  total : Small (K := K) g.total
  cycleWidth : Firm g.cycleWidth
  divisor : Divisor g.cycleWidth
  widths : ∀ w ∈ g.widths, Firm w
  offsets : ∀ x ∈ g.offsets, Firm x

structure Frame.Steady (f : Frame K) : Prop where
  options : f.options.Steady
  grid : f.grid.Steady
  schemaX : Firm f.schemaX

structure Cursor.Steady (c : Cursor K) : Prop where
  y : Firm c.y
  extent : Firm c.extent

/-- What is drawn of a placed thing starts from firm coordinates. -/
def Placed.Steady : Placed K → Prop
  | .group g => Firm g.labelAt.x ∧ Firm g.labelAt.y
  | .signal s => Firm s.y ∧ ∀ p ∈ s.segments, Firm p.x₀

def Anchor.Steady (a : Anchor K) : Prop := Firm a.x ∧ Firm a.y

structure Block.Steady (b : Block K) : Prop where
  order : ∀ p ∈ b.order, p.Steady
  anchors : ∀ a ∈ b.anchors, a.Steady
  lanes : ∀ span ∈ b.lanes, Firm span.top ∧ Firm span.bottom

namespace Options

variable {o : Options K}

theorem Steady.scaledCycleWidth (h : o.Steady) : Firm o.scaledCycleWidth :=
  firm_mul (h.number .cycleWidth) (operand_of_firm (h.number .hscale))

theorem Steady.textWidth (h : o.Steady) {s : String} (hs : Small (K := K) s.length) :
    Firm (o.textWidth s) := by
  rw [Options.textWidth]
  split
  · rename_i measure hMeasure
    exact firm_toFraction (h.measure measure hMeasure s)
  · exact firm_mul (firm_mul' (operand_whole hs) (h.number .fontSize))
      (operand_of_firm (h.number .charWidth))

end Options

namespace Grid

variable {g : Grid K} {o : Options K}

theorem Steady.offset (h : g.Steady) (i : Nat) : Firm (g.offset i) := by
  rw [Grid.offset, Array.getD_eq_getD_getElem?]
  cases hx : g.offsets[i]? with
  | none => exact firm_zero
  | some x => exact h.offsets x (Array.mem_of_getElem? hx)

theorem Steady.columnWidth (h : g.Steady) (i : Nat) : Firm (g.columnWidth i) := by
  rw [Grid.columnWidth, Array.getD_eq_getD_getElem?]
  cases hx : g.widths[i]? with
  | none => exact firm_zero
  | some x => exact h.widths x (Array.mem_of_getElem? hx)

theorem Steady.width (h : g.Steady) : Firm g.width := by
  rw [Grid.width]
  cases hx : g.offsets.back? with
  | none => exact firm_zero
  | some x => exact h.offsets x (Array.mem_of_back? hx)

theorem Steady.within (h : g.Steady) {i : Nat} {cycle : K}
    (hCycle : Operand (cycle - Scalar.whole i)) : Firm (g.within i cycle) :=
  firm_add (h.offset i) (operand_of_firm (firm_mul' hCycle (h.columnWidth i)))

theorem Steady.beyond (h : g.Steady) {cycle : K}
    (hCycle : Operand (cycle - Scalar.whole g.total)) : Firm (g.beyond cycle) :=
  firm_add h.width (operand_of_firm (firm_mul' hCycle h.cycleWidth))

theorem Steady.units (h : g.Steady) (start stop : Int) : ∀ x ∈ g.units start stop, Firm x := by
  intro x hx
  obtain ⟨w, hw, rfl⟩ := List.mem_map.mp hx
  have hWidth := Array.mem_toList_iff.mp (List.mem_of_mem_drop (List.mem_of_mem_take hw))
  exact firm_div (h.widths w hWidth) h.divisor

theorem firm_runningSums {start : K} {widths : List K} (hStart : Firm start)
    (h : ∀ w ∈ widths, Firm w) : ∀ x ∈ runningSums start widths, Firm x := by
  induction widths generalizing start with
  | nil => simpa [runningSums] using hStart
  | cons w rest ih =>
      obtain ⟨hFirst, hRest⟩ := List.forall_mem_cons.mp h
      rw [runningSums]
      exact List.forall_mem_cons.mpr ⟨hStart, ih (firm_add hStart (operand_of_firm hFirst)) hRest⟩

theorem steady_ofWidths (ho : o.Steady) {widths : List K} (h : ∀ w ∈ widths, Firm w)
    (hCount : Small (K := K) widths.length) : (ofWidths o widths).Steady where
  total := by simpa [ofWidths, total] using hCount
  cycleWidth := ho.scaledCycleWidth
  divisor := ho.divisor
  widths := by simpa [ofWidths] using h
  offsets := by simpa [ofWidths] using firm_runningSums firm_zero h

theorem firm_shrunkWidth (ho : o.Steady) : Firm (shrunkWidth o) := by
  have hTwice : Firm (o.transitionOffset * Scalar.whole 2) :=
    firm_mul (ho.number .transitionOffset) (operand_digit (by decide) (by decide))
  have hLeast : Firm o.minGapWidth :=
    firm_min (firm_max (ho.number .gapMinWidth) hTwice) ho.scaledCycleWidth
  have hShrunk := firm_mul ho.scaledCycleWidth (operand_of_firm (ho.number .gapShrink))
  exact firm_min (firm_max hShrunk hLeast) ho.scaledCycleWidth

variable [LT K] [DecidableLT K]

/-- A time axis can be built and computed with where there is room for its columns. -/
theorem build_steady (ho : o.Steady) {signals : List (Compiled K)}
    (hLongest : Small (K := K) (Compiled.longest signals))
    (hRoom : Storable (K := K) (Compiled.longest signals)) :
    ∃ g, build signals o = .ok g ∧ g.Steady := by
  have hFull : ∀ w ∈ List.replicate (Compiled.longest signals) o.scaledCycleWidth, Firm w :=
    fun w hw => List.eq_of_mem_replicate hw ▸ ho.scaledCycleWidth
  have hShrunk := firm_toFraction (operand_of_firm (firm_shrunkWidth ho))
  obtain ⟨widths, hWidths, hLength, hFirm⟩ : ∃ widths, columnWidths signals o = .ok widths ∧
      widths.length ≤ Compiled.longest signals ∧ ∀ w ∈ widths, Firm w := by
    simp only [columnWidths, filled_firm hRoom ho.scaledCycleWidth, checked_firm hShrunk, ok_bind]
    split_ifs
    · refine ⟨_, rfl, by simp, fun w hw => ?_⟩
      rw [← List.map_uncurry_zip_eq_zipWith] at hw
      obtain ⟨⟨mark, full⟩, hPair, rfl⟩ := List.mem_map.mp hw
      cases mark
      · exact hFull full (List.of_mem_zip hPair).2
      · exact hShrunk
    · exact ⟨_, rfl, by simp, hFull⟩
  refine ⟨ofWidths o widths, by rw [build, hWidths]; rfl, steady_ofWidths ho hFirm ?_⟩
  exact small_of_le hLongest (by omega) (by omega)

variable [LE K] [DecidableLE K]

omit [LT K] [DecidableLT K] in
theorem Steady.xAt (h : g.Steady) {cycle : K} (hCycle : Position cycle) :
    ∃ x, g.xAt cycle = .ok x ∧ Firm x := by
  rw [Grid.xAt]
  split_ifs
  · exact ⟨_, rfl, firm_zero⟩
  · exact ⟨_, rfl, h.beyond (operand_sub hCycle h.total)⟩
  · obtain ⟨i, hi, hOperand⟩ := truncate_position hCycle
    rw [hi]
    exact ⟨_, rfl, h.within hOperand⟩

theorem succeeds_xsAt (g : Grid K) {cycles : List K} (h : ∀ c ∈ cycles, Firm c) :
    Succeeds (g.xsAt cycles) := by
  have hFractions : Scalar.allChecked (cycles.map Scalar.toFraction) =
      .ok (cycles.map Scalar.toFraction) := by
    refine allChecked_firm fun x hx => ?_
    obtain ⟨c, hc, rfl⟩ := List.mem_map.mp hx
    exact firm_toFraction (operand_of_firm (h c hc))
  rw [xsAt, hFractions, ok_bind]
  split_ifs <;> exact succeeds_ok _

end Grid

namespace Block

theorem steady_empty : (empty : Block K).Steady := ⟨by simp [empty], by simp [empty], by simp [empty]⟩

theorem Steady.append {a b : Block K} (ha : a.Steady) (hb : b.Steady) : (a.append b).Steady := by
  refine ⟨List.forall_mem_append.mpr ⟨ha.order, hb.order⟩,
    List.forall_mem_append.mpr ⟨ha.anchors, hb.anchors⟩, ?_⟩
  rcases a with ⟨_, _, _, _ | first⟩
  · exact hb.lanes
  · rcases b with ⟨_, _, _, _ | last⟩
    · exact ha.lanes
    · rintro span ⟨⟩
      exact ⟨(ha.lanes first rfl).1, (hb.lanes last rfl).2⟩

end Block

namespace Frame

variable {f : Frame K} {s : Compiled K} {seg : Segment} {depth : Nat} {c : Cursor K}

theorem Steady.nextLane (hf : f.Steady) (hc : c.Steady) :
    ∀ span ∈ some (f.nextLane c), Firm span.top ∧ Firm span.bottom := by
  rintro span ⟨⟩
  exact ⟨hc.y, firm_add hc.y (operand_of_firm (hf.options.number .waveHeight))⟩

theorem Steady.placeGroup (hf : f.Steady) (label : Option String) (hDepth : Small (K := K) depth)
    {lanes : LaneSpan K} (hTop : Firm lanes.top) (hBottom : Firm lanes.bottom) :
    ∃ placed, f.placeGroup label depth lanes = .ok placed ∧ (Placed.group placed).Steady := by
  have hIndent : Firm f.options.groupIndent := hf.options.number .groupIndent
  have hLeft : Firm (f.options.paddingLeft + Scalar.whole depth * f.options.groupIndent) :=
    firm_add (hf.options.number .paddingLeft)
      (operand_of_firm (firm_mul' (operand_whole hDepth) hIndent))
  have hBar := firm_add hLeft
    (operand_of_firm (firm_mul hIndent (operand_of_firm (firm_fraction 3 4))))
  have hTip : Firm (f.options.paddingLeft + Scalar.whole depth * f.options.groupIndent +
      f.options.groupIndent - Scalar.whole 2) :=
    firm_sub (firm_add hLeft (operand_of_firm hIndent)) (operand_digit (by decide) (by decide))
  have hx := firm_add hLeft
    (operand_of_firm (firm_mul hIndent (operand_of_firm (firm_fraction 35 100))))
  have hy : Firm ((lanes.top + lanes.bottom) / Scalar.whole 2) :=
    firm_div (firm_add hTop (operand_of_firm hBottom)) divisor_two
  simp only [Frame.placeGroup, checked_firm hLeft, checked_firm hBar, checked_firm hTip,
    checked_firm hx, checked_firm hy, ok_bind]
  exact ⟨_, rfl, hx, hy⟩

theorem Steady.pastLane (hf : f.Steady) (hc : c.Steady) :
    ∃ past, f.pastLane c = .ok past ∧ past.Steady := by
  have hHeight : Firm f.options.waveHeight := hf.options.number .waveHeight
  have hSpacing : Firm f.options.lineSpacing := hf.options.number .lineSpacing
  have hBottom := firm_add hc.y (operand_of_firm hHeight)
  have hNext := firm_add hBottom (operand_of_firm hSpacing)
  simp only [Frame.pastLane, checked_firm hNext, ok_bind]
  exact ⟨_, rfl, hNext, hBottom⟩

theorem Steady.bracketed (hf : f.Steady) (label : Option String) (hDepth : Small (K := K) depth)
    {members : Block K} (hMembers : members.Steady) :
    ∃ b, f.bracketed label depth members = .ok b ∧ b.Steady := by
  rw [Frame.bracketed]
  split
  · exact ⟨members, rfl, hMembers⟩
  · rename_i lanes hLanes
    obtain ⟨hTop, hBottom⟩ := hMembers.lanes lanes hLanes
    obtain ⟨placed, hPlaced, hGroup⟩ := hf.placeGroup label hDepth hTop hBottom
    rw [hPlaced]
    exact ⟨_, rfl, List.forall_mem_cons.mpr ⟨hGroup, hMembers.order⟩, hMembers.anchors,
      hMembers.lanes⟩

variable [LT K] [LE K] [DecidableLT K] [DecidableLE K]

theorem succeeds_placePulses (f : Frame K) (hs : s.Steady) (hSeg : seg ∈ s.segments) :
    Succeeds (f.placePulses s seg) := by
  rw [placePulses]
  split_ifs with hClock
  · obtain ⟨train, hTrain, hFirm⟩ := hs.trains seg hSeg hClock
    rw [hTrain, ok_bind]
    refine (f.grid.succeeds_xsAt fun c hc => ?_).bind fun _ _ => succeeds_pure _
    obtain ⟨pulse, hPulse, rfl⟩ := List.mem_map.mp hc
    exact firm_add' (operand_whole (hs.spans seg hSeg).1) (hFirm pulse hPulse)
  · exact succeeds_pure _

theorem Steady.succeeds_placeGapMark (hf : f.Steady) (hs : s.Steady) (hSeg : seg ∈ s.segments)
    {gap : Int} (hGap : gap ∈ seg.gaps) : Succeeds (f.placeGapMark s gap) := by
  obtain ⟨hPlace, hRest⟩ := hs.gaps seg hSeg gap hGap
  obtain ⟨x, hx, hFirm⟩ := hf.grid.xAt (position_centre hPlace hRest)
  simp only [placeGapMark, hx, ok_bind]
  exact ⟨_, checked_firm (firm_add hf.schemaX (operand_of_firm hFirm))⟩

theorem Steady.placeSegment (hf : f.Steady) (hs : s.Steady) (hSeg : seg ∈ s.segments) :
    ∃ p, f.placeSegment s seg = .ok p ∧ Firm p.x₀ := by
  obtain ⟨hStart, hStop⟩ := hs.spans seg hSeg
  obtain ⟨x₀, hx₀, hFirst⟩ := hf.grid.xAt (position_whole hStart)
  obtain ⟨x₁, hx₁, hLast⟩ := hf.grid.xAt (position_whole hStop)
  have hLeft := firm_add hf.schemaX (operand_of_firm hFirst)
  have hRight := firm_add hf.schemaX (operand_of_firm hLast)
  obtain ⟨pulses, hPulses⟩ := succeeds_placePulses f hs hSeg
  obtain ⟨marks, hMarks⟩ : Succeeds (seg.gaps.mapM (f.placeGapMark s)) :=
    Succeeds.mapM fun gap hGap => hf.succeeds_placeGapMark hs hSeg hGap
  simp only [Frame.placeSegment, hx₀, hx₁, hPulses, hMarks, checked_firm hLeft, checked_firm hRight,
    ok_bind]
  exact ⟨_, rfl, hLeft⟩

theorem Steady.placeSignal (hf : f.Steady) (hs : s.Steady) (slot depth : Nat) {top : K}
    (hTop : Firm top) : ∃ placed anchors, f.placeSignal s slot depth top = .ok (placed, anchors) ∧
      (Placed.signal placed).Steady ∧ ∀ a ∈ anchors, a.Steady := by
  obtain ⟨segments, hPlaced, hFirm⟩ := exists_mapM fun seg hSeg => hf.placeSegment hs hSeg
  have hHeight : Firm f.options.waveHeight := hf.options.number .waveHeight
  have hMiddle := firm_add hTop (operand_of_firm (firm_div hHeight divisor_two))
  simp only [Frame.placeSignal, hPlaced, allChecked_firm (hf.grid.units 0 s.length),
    checked_firm hMiddle, ok_bind]
  refine ⟨_, _, rfl, ⟨hTop, hFirm⟩, fun a ha => ?_⟩
  obtain ⟨p, hp, hAnchor⟩ := List.mem_filterMap.mp ha
  obtain ⟨name, _, rfl⟩ := Option.map_eq_some_iff.mp hAnchor
  exact ⟨hFirm p hp, hMiddle⟩

mutual

theorem Steady.placeItem (hf : f.Steady) {depth : Nat} {item : Item (Compiled K)} {c : Cursor K}
    (hc : c.Steady) (hSignals : ∀ s ∈ item.leaves, s.Steady)
    (hDepths : ∀ step ∈ item.steps depth, Small (K := K) step.2) :
    ∃ b past, f.placeItem depth item c = .ok (b, past) ∧ b.Steady ∧ past.Steady := by
  cases item with
  | signal s =>
      obtain ⟨past, hPast, hAfter⟩ := hf.pastLane hc
      obtain ⟨placed, anchors, hPlaced, hSignal, hAnchors⟩ :=
        hf.placeSignal (hSignals s (by simp [Item.leaves])) c.slot depth hc.y
      rw [Frame.placeItem, hPast, ok_bind, hPlaced, ok_bind]
      exact ⟨_, _, rfl, ⟨by simpa using hSignal, hAnchors, hf.nextLane hc⟩, hAfter⟩
  | spacer =>
      obtain ⟨past, hPast, hAfter⟩ := hf.pastLane hc
      rw [Frame.placeItem, hPast, ok_bind]
      exact ⟨_, _, rfl, ⟨by simp, by simp, hf.nextLane hc⟩, hAfter⟩
  | group label members =>
      rw [Frame.placeItem]
      split_ifs
      · exact ⟨_, _, rfl, Block.steady_empty, hc⟩
      · have hMargin : Operand f.options.groupMargin :=
          operand_of_firm (hf.options.number .groupMargin)
        have hTop := firm_add hc.y hMargin
        rw [Item.leaves] at hSignals
        rw [Item.steps] at hDepths
        have hBelow : ({ c with y := c.y + f.options.groupMargin } : Cursor K).Steady :=
          ⟨hTop, hc.extent⟩
        obtain ⟨inner, past, hInner, hMembers, hInside⟩ := Steady.placeItems hf hBelow hSignals
          fun step hStep => hDepths step (List.mem_append_left _ (List.mem_cons_of_mem _ hStep))
        have hBottom := firm_add hInside.y hMargin
        have hDepth : Small (K := K) depth := hDepths (.enter label members, depth) (by simp)
        obtain ⟨outer, hOuter, hBlock⟩ := hf.bracketed label hDepth hMembers
        simp only [checked_firm hTop, hInner, checked_firm hBottom, hOuter, ok_bind]
        exact ⟨_, _, rfl, hBlock, hBottom, firm_add hInside.extent hMargin⟩

/-- Items can be placed where there is room for their signals and for their nesting. -/
theorem Steady.placeItems (hf : f.Steady) {depth : Nat} {items : List (Item (Compiled K))}
    {c : Cursor K} (hc : c.Steady) (hSignals : ∀ s ∈ Item.leavesAll items, s.Steady)
    (hDepths : ∀ step ∈ Item.stepsAll depth items, Small (K := K) step.2) :
    ∃ b past, f.placeItems depth items c = .ok (b, past) ∧ b.Steady ∧ past.Steady := by
  cases items with
  | nil => exact ⟨_, _, rfl, Block.steady_empty, hc⟩
  | cons item rest =>
      rw [Item.leavesAll] at hSignals
      rw [Item.stepsAll] at hDepths
      obtain ⟨hFirstSignals, hOtherSignals⟩ := List.forall_mem_append.mp hSignals
      obtain ⟨hFirstDepths, hOtherDepths⟩ := List.forall_mem_append.mp hDepths
      obtain ⟨first, next, hFirst, hBefore, hNext⟩ := Steady.placeItem hf hc hFirstSignals hFirstDepths
      obtain ⟨others, past, hOthers, hAfter, hPast⟩ :=
        Steady.placeItems hf hNext hOtherSignals hOtherDepths
      rw [Frame.placeItems, hFirst, ok_bind]
      simp only [hOthers, ok_bind]
      exact ⟨_, _, rfl, hBefore.append hAfter, hPast⟩

end

end Frame

namespace Caption

variable {o : Options K} {g : Grid K}

theorem firm_titleRow (note : Caption) (ho : o.Steady) : Firm (note.titleRow o) := by
  rw [titleRow]
  split_ifs
  · exact firm_add (ho.number .fontSize) (operand_digit (by decide) (by decide))
  · exact firm_zero

theorem firm_numberRow (note : Caption) (ho : o.Steady) : Firm (note.numberRow o) := by
  rw [numberRow]
  split_ifs
  · exact firm_add (ho.number .fontSize) (operand_digit (by decide) (by decide))
  · exact firm_zero

theorem firm_height (note : Option Caption) (ho : o.Steady) : Firm (height note o) := by
  cases note with
  | none => exact firm_zero
  | some note =>
      exact firm_add (firm_add firm_zero (operand_of_firm (note.firm_titleRow ho)))
        (operand_of_firm (note.firm_numberRow ho))

omit [Add K] [Sub K] [Mul K] [Div K] [Max K] [Min K] [Scalar K] [FirmScalar K] in
theorem lt_of_mem_multiples {step limit i : Nat} (h : i ∈ multiples step limit) : i < limit := by
  obtain ⟨j, hj, rfl⟩ := List.mem_map.mp h
  rw [List.mem_range] at hj
  have hStep : 0 < step := by
    by_contra hZero
    simp [Nat.eq_zero_of_not_pos hZero] at hj
  have hNext := (Nat.le_div_iff_mul_le hStep).mp (Nat.succ_le_of_lt hj)
  rw [Nat.succ_mul] at hNext
  omega

variable [LE K] [DecidableLE K]

theorem succeeds_numbers (hg : g.Steady) {schemaX y : K} (hx : Firm schemaX) {position : Nat → K}
    (start : Option Int) {places : List Nat} (h : ∀ i ∈ places, Position (position i)) :
    Succeeds (numbers g schemaX y position start places) := by
  cases start with
  | none => exact succeeds_ok []
  | some start =>
      refine Succeeds.mapM fun i hi => ?_
      obtain ⟨x, hPlace, hFirm⟩ := hg.xAt (h i hi)
      rw [hPlace, ok_bind, checked_firm (firm_add hx (operand_of_firm hFirm)), ok_bind]
      exact succeeds_pure _

theorem succeeds_place (note : Caption) (ho : o.Steady) (hg : g.Steady) {y schemaX : K} (hy : Firm y)
    (hx : Firm schemaX) (above : Bool) : Succeeds (note.place y schemaX g o above) := by
  have hTitle := operand_of_firm (note.firm_titleRow ho)
  have hRow := operand_of_firm (note.firm_numberRow ho)
  have hHalfTitle := operand_of_firm (firm_div (note.firm_titleRow ho) divisor_two)
  have hHalfRow := operand_of_firm (firm_div (note.firm_numberRow ho) divisor_two)
  have hTitleY : Firm (if above then y + note.titleRow o / Scalar.whole 2
      else y + note.numberRow o + note.titleRow o / Scalar.whole 2) := by
    split_ifs
    · exact firm_add hy hHalfTitle
    · exact firm_add (firm_add hy hRow) hHalfTitle
  have hRowY : Firm (if above then y + note.titleRow o + note.numberRow o / Scalar.whole 2
      else y + note.numberRow o / Scalar.whole 2) := by
    split_ifs
    · exact firm_add (firm_add hy hTitle) hHalfRow
    · exact firm_add hy hHalfRow
  have hSmall {i : Nat} (hi : i ≤ g.total) : Small (K := K) i :=
    small_of_le hg.total (by omega) (by omega)
  simp only [place, checked_firm hTitleY, checked_firm hRowY, ok_bind]
  refine (succeeds_numbers hg hx note.tick fun i hi => ?_).bind fun ticks _ => ?_
  · exact position_whole (hSmall (Nat.le_of_lt_succ (lt_of_mem_multiples hi)))
  · refine (succeeds_numbers hg hx note.tock fun i hi => ?_).bind fun tocks _ => succeeds_pure _
    exact position_halfway (hSmall (lt_of_mem_multiples hi).le)

theorem succeeds_mapM_place (note : Option Caption) (ho : o.Steady) (hg : g.Steady) {y schemaX : K}
    (hy : Firm y) (hx : Firm schemaX) (above : Bool) :
    Succeeds (note.mapM fun note => note.place y schemaX g o above) := by
  cases note with
  | none => exact succeeds_ok none
  | some note => exact (note.succeeds_place ho hg hy hx above).bind fun _ _ => succeeds_pure _

end Caption

/-- Compiled items that there is room for, and for whose nesting there is room. -/
structure Item.Steady [LT K] [DecidableLT K] (items : List (Item (Compiled K))) : Prop where
  signals : ∀ s ∈ Item.leavesAll items, s.Steady
  depths : ∀ step ∈ Item.walk items, Small (K := K) step.2

/-- A layout whose coordinates can be computed with. -/
structure Layout.Steady (l : Layout K) : Prop where
  width : Firm l.width
  height : Firm l.height
  order : ∀ p ∈ l.order, p.Steady
  anchors : ∀ a ∈ l.anchors.anchors, a.Steady

namespace Layout

/-- What holds of zero and of some numbers holds of the largest of them. -/
theorem of_foldl_max {p : Nat → Prop} {l : List Nat} (hZero : p 0) (h : ∀ n ∈ l, p n) :
    p (l.foldl max 0) := by
  refine List.foldlRecOn (motive := p) l max hZero fun m hm n hn => ?_
  rcases max_choice m n with hMax | hMax <;> rw [hMax]
  · exact hm
  · exact h n hn

variable [LT K] [LE K] [DecidableLT K] [DecidableLE K] {o : Options K}
  {items : List (Item (Compiled K))}

omit [LE K] [DecidableLE K] in
theorem frameOf_steady (ho : o.Steady) (h : Item.Steady items) :
    ∃ frame, frameOf o items = .ok frame ∧ frame.Steady ∧ frame.options = o := by
  have hSignals : Item.signals items = Item.leavesAll items := Item.signals_eq_leavesAll items
  have hZero : Small (K := K) (0 : Nat) := small_of_le small_eight (by decide) (by decide)
  have hLongest : Small (K := K) (Compiled.longest (Item.signals items)) ∧
      Storable (K := K) (Compiled.longest (Item.signals items)) := by
    refine of_foldl_max (p := fun n => Small (K := K) n ∧ Storable (K := K) n)
      ⟨hZero, storable_zero⟩ fun n hn => ?_
    obtain ⟨s, hs, rfl⟩ := List.mem_map.mp hn
    have hSignal := h.signals s (hSignals ▸ hs)
    exact ⟨hSignal.length, hSignal.columns⟩
  obtain ⟨grid, hGrid, hSteady⟩ := Grid.build_steady ho hLongest.1 hLongest.2
  have hDepth : Small (K := K) (Item.laneDepth items) := by
    refine of_foldl_max (p := fun n => Small (K := K) n) hZero fun n hn => ?_
    obtain ⟨⟨event, depth⟩, hStep, hLane⟩ := List.mem_filterMap.mp hn
    have hSmall := h.depths (event, depth) hStep
    cases event <;> cases hLane
    exact hSmall
  have hName : Firm (o.paddingLeft + Scalar.whole (Item.laneDepth items) * o.groupIndent) :=
    firm_add (ho.number .paddingLeft)
      (operand_of_firm (firm_mul' (operand_whole hDepth) (ho.number .groupIndent)))
  have hWidth : Firm (Scalar.largest Scalar.zero
      ((Item.signals items).map fun s => o.textWidth s.signal.name)) := by
    refine firm_largest firm_zero fun w hw => ?_
    obtain ⟨s, hs, rfl⟩ := List.mem_map.mp hw
    exact ho.textWidth (h.signals s (hSignals ▸ hs)).name
  have hSpacing : Firm (if (Item.signals items).isEmpty then Scalar.zero else o.nameSpacing) := by
    split_ifs
    · exact firm_zero
    · exact ho.number .nameSpacing
  have hX := firm_add (firm_add hName (operand_of_firm hWidth)) (operand_of_firm hSpacing)
  simp only [frameOf, hGrid, checked_firm hName, checked_firm hWidth, checked_firm hX, ok_bind]
  exact ⟨_, rfl, ⟨ho, hSteady, hX⟩, rfl⟩

omit [LT K] [LE K] [DecidableLT K] [DecidableLE K] in
theorem firm_heightOf (ho : o.Steady) {start : K} (hStart : Firm start) {past : Cursor K}
    (hPast : past.Steady) : Firm (heightOf o start past) := by
  rw [heightOf]
  split_ifs
  · exact firm_zero
  · exact firm_add (firm_add (ho.number .schemaTop)
      (operand_of_firm (firm_sub hPast.extent (operand_of_firm hStart))))
      (operand_of_firm (ho.number .schemaBottom))

/-- A layout comes down to registering the anchors of the compiled signals. -/
theorem ofItems_registers (ho : o.Steady) (h : Item.Steady items) (head foot : Option Caption) :
    ∃ anchors : List (Anchor K),
      anchors.map Anchor.declared = (Item.leavesAll items).flatMap Compiled.declared ∧
      (∀ e, Registry.ofList anchors = .error e → ofItems o items head foot = .error e) ∧
      ∀ r, Registry.ofList anchors = .ok r →
        ∃ l, ofItems o items head foot = .ok l ∧ l.Holds (Item.leavesAll items) ∧ l.Steady := by
  obtain ⟨frame, hFrame, hSteady, hOptions⟩ := frameOf_steady ho h
  have hSchemaY : Firm (o.paddingTop + Caption.height head o) :=
    firm_add (ho.number .paddingTop) (operand_of_firm (Caption.firm_height head ho))
  obtain ⟨start, hStart⟩ : ∃ start, start = o.paddingTop + Caption.height head o + o.schemaTop :=
    ⟨_, rfl⟩
  have hFirst : Firm start := hStart ▸ firm_add hSchemaY (operand_of_firm (ho.number .schemaTop))
  have hCursor : (⟨start, start, 0⟩ : Cursor K).Steady := ⟨hFirst, hFirst⟩
  obtain ⟨block, past, hBlock, hPlaced, hPast⟩ :=
    hSteady.placeItems hCursor h.signals (Item.walk_eq_stepsAll items ▸ h.depths)
  have hPlaces := Frame.places_of_placeItems hBlock
  have hHeight := firm_heightOf ho hFirst hPast
  have hWidth : Firm (frame.schemaX + frame.grid.width + o.paddingRight) :=
    firm_add (firm_add hSteady.schemaX (operand_of_firm hSteady.grid.width))
      (operand_of_firm (ho.number .paddingRight))
  have hFootY := firm_add hSchemaY (operand_of_firm hHeight)
  have hTotal : Firm (o.paddingTop + Caption.height head o + heightOf o start past +
      Caption.height foot o + o.paddingBottom) :=
    firm_add (firm_add hFootY (operand_of_firm (Caption.firm_height foot ho)))
      (operand_of_firm (ho.number .paddingBottom))
  refine ⟨block.anchors, hPlaces.anchors, fun e he => ?_, fun r hr => ?_⟩
  · simp only [ofItems, hFrame, checked_firm hFirst, hBlock, checked_firm hHeight, checked_firm hWidth,
      checked_firm hTotal, he, ← hStart, liftM_ok, ok_bind]
    rfl
  · obtain ⟨placedHead, hHead⟩ := Caption.succeeds_mapM_place head ho hSteady.grid
      (y := o.paddingTop) (ho.number .paddingTop) hSteady.schemaX true
    obtain ⟨placedFoot, hFoot⟩ := Caption.succeeds_mapM_place foot ho hSteady.grid hFootY
      hSteady.schemaX false
    obtain ⟨l, hl, hOrder, hDrawn, hAnchors⟩ : ∃ l, ofItems o items head foot = .ok l ∧
        l.order = block.order ∧ (Firm l.width ∧ Firm l.height) ∧ l.anchors = r := by
      simp only [ofItems, hFrame, checked_firm hFirst, hBlock, checked_firm hHeight,
        checked_firm hWidth, checked_firm hTotal, hr, hHead, hFoot, ← hStart, liftM_ok, ok_bind]
      exact ⟨_, rfl, rfl, ⟨hWidth, hTotal⟩, rfl⟩
    refine ⟨l, hl, ?_, hDrawn.1, hDrawn.2, hOrder ▸ hPlaced.order, ?_⟩
    · rw [Holds, signals, hOrder]
      exact hPlaces.segments
    · rw [hAnchors, Registry.anchors_of_ofList hr]
      exact hPlaced.anchors

omit [LT K] [LE K] [DecidableLT K] [DecidableLE K] in
theorem Steady.succeeds_summary {l : Layout K} (h : l.Steady) : Succeeds (summary l) := by
  obtain ⟨width, hWidth⟩ := fixed_firm 1 h.width
  obtain ⟨height, hHeight⟩ := fixed_firm 1 h.height
  simp only [summary, hWidth, hHeight, ok_bind]
  exact succeeds_pure _

/-- What is told of a layout does not change its outcome. -/
theorem Steady.compute_eq_ok {head foot : Option Caption} {l : Layout K} (h : l.Steady)
    (hLayout : ofItems o items head foot = .ok l) :
    (compute o items head foot).outcome = .ok l := by
  obtain ⟨record, hRecord⟩ := h.succeeds_summary
  rw [compute]
  simp only [Logged.outcome_bind, Logged.outcome_liftM, hLayout, hRecord, liftM_ok, ok_bind]
  rfl

omit [FirmScalar K] in
theorem compute_eq_error {head foot : Option Caption} {e : Error}
    (hLayout : ofItems o items head foot = .error e) :
    (compute o items head foot).outcome = .error e := by
  rw [compute]
  simp only [Logged.outcome_bind, Logged.outcome_liftM, hLayout, error_bind]

end Layout
end TimingDiagram
