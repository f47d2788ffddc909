import TimingDiagram.Proofs.Document.Loading
import TimingDiagram.Proofs.Edge.Broken
import TimingDiagram.Proofs.Figure.Drawing
import TimingDiagram.Proofs.Figure.Emission
import TimingDiagram.Proofs.Wave.Meaning

/-! Which documents have a figure. Where there is room for it, a document is drawn exactly when it is
sound, and otherwise it is refused for its first fault. In exact arithmetic there is room for every
document. -/
namespace TimingDiagram

section Pulses

variable {K : Type} [Field K] [LinearOrder K] [IsStrictOrderedRing K] [FloorRing K] [Scalar K]
  [ExactScalar K]

theorem Pulse.succeeds_turnsFrom (half phase limit : K) (rising : Bool) (fuel : Nat) (k : Int) :
    Succeeds (turnsFrom half phase limit rising fuel k) := by
  induction fuel generalizing k with
  | zero => exact succeeds_ok []
  | succ fuel ih =>
      rw [turnsFrom, ExactScalar.checked_eq, ok_bind]
      split_ifs
      · rw [halvesBefore, ExactScalar.floor_eq, ok_bind]
        exact (ih (k + 1)).bind fun _ _ => succeeds_pure _
      · exact succeeds_pure _

theorem Pulse.succeeds_train (cycles period phase : K) (rising : Bool) :
    Succeeds (train cycles period phase rising) := by
  simp only [train, halvesBefore, ExactScalar.floor_eq, ExactScalar.checked_eq, ok_bind]
  exact (succeeds_turnsFrom _ _ _ _ _ _).bind fun _ _ => succeeds_pure _

end Pulses

namespace Document

variable {K : Type} {d : Document K} {e : Error}

/-- The compiled signals show the items that they come from. -/
theorem items_of_compile {items : List (Item (Compiled K))} (h : d.compile.outcome = .ok items) :
    Item.mapAll Compiled.signal items = d.items :=
  Item.mapAll_of_traverseAll (fun _ _ h => (Signal.of_compile h).1) h

/-- Enough colours are enough for every box of a signal. -/
theorem fills_of_compile {o : Options K} {s : Signal K} {c : Compiled K}
    (hColours : 8 ≤ o.backgrounds.length) (hPeriod : 1 ≤ s.period) (h : s.compile.outcome = .ok c) :
    ∀ seg ∈ c.segments, o.Fills seg := by
  intro seg hSeg hData
  obtain ⟨hLow, hHigh⟩ := (drawable_of_compile hPeriod h seg hSeg).2 hData
  exact Options.succeeds_background hColours hLow hHigh

section Steady

open FirmScalar

variable [Add K] [Sub K] [Mul K] [Div K] [LT K] [LE K] [DecidableLT K] [DecidableLE K]
  [Max K] [Min K] [Scalar K] [FirmScalar K]

/-- A document that there is room for. -/
structure Steady (d : Document K) : Prop where
  options : d.options.Steady
  signals : ∀ s ∈ d.signals, ∀ c, s.compile.outcome = .ok c → c.Steady
  depths : ∀ step ∈ Item.walk d.items, Small (K := K) step.2
  labels : ∀ e ∈ d.edges, ∀ label ∈ e.label, Small (K := K) label.length

omit [LE K] [DecidableLE K] in
theorem Steady.compiled (hSteady : d.Steady) {items : List (Item (Compiled K))}
    (hItems : d.compile.outcome = .ok items)
    (hCompiled : List.Forall₂ (fun s c => s.compile.outcome = .ok c) d.signals
      (Item.leavesAll items)) : Item.Steady items where
  signals c hc := by
    obtain ⟨s, hs, hCompile⟩ := exists_of_mem_forall₂ hCompiled hc
    exact hSteady.signals s hs c hCompile
  depths step hStep := by
    have hDepths := hSteady.depths
    rw [← items_of_compile hItems, Item.walk_eq_stepsAll, Item.stepsAll_mapAll] at hDepths
    rw [Item.walk_eq_stepsAll] at hStep
    exact hDepths _ (List.mem_map_of_mem hStep)

omit [LT K] [LE K] [DecidableLT K] [DecidableLE K] in
/-- An edge whose anchors are unknown does not stop a figure. -/
theorem succeeds_ofSpec {registry : Registry K} (h : ∀ a ∈ registry.anchors, a.Steady)
    (spec : EdgeSpec) : Succeeds (EdgeResult.ofSpec registry spec) := by
  rw [EdgeResult.ofSpec]
  split
  · rename_i source target hEnds
    obtain ⟨_, hSource, hEnds⟩ := bind_eq_ok_iff.mp hEnds
    obtain ⟨_, hTarget, hEnds⟩ := bind_eq_ok_iff.mp hEnds
    cases hEnds
    obtain ⟨hx₁, hy₁⟩ := h source (Registry.mem_of_lookup hSource)
    obtain ⟨hx₂, hy₂⟩ := h target (Registry.mem_of_lookup hTarget)
    have hFirm : ∀ x ∈ [target.x - source.x, (source.x + target.x) / Scalar.whole 2,
        (source.y + target.y) / Scalar.whole 2], Firm x := by
      simpa using ⟨firm_sub hx₂ (operand_of_firm hx₁),
        firm_div (firm_add hx₁ (operand_of_firm hx₂)) divisor_two,
        firm_div (firm_add hy₁ (operand_of_firm hy₂)) divisor_two⟩
    simp only [EdgePath.between, EdgePath.course, EdgePath.checkEnds, allChecked_firm hFirm, ok_bind]
    exact succeeds_pure _
  · exact succeeds_ok _

/-- A sound document that there is room for has a figure. -/
theorem Steady.succeeds_render [BEq K] (hSteady : d.Steady)
    (hPeriods : ∀ s ∈ d.signals, 1 ≤ s.period) (hColours : 8 ≤ d.options.backgrounds.length)
    (h : d.Sound) : Succeeds d.render.outcome := by
  obtain ⟨items, hItems, hCompiled⟩ := compile_of_sound h.signals
  obtain ⟨anchors, hAnchors, _, hDrawn⟩ := Layout.ofItems_registers hSteady.options
    (hSteady.compiled hItems hCompiled) d.head d.foot
  rw [flatMap_declared hPeriods hCompiled] at hAnchors
  have hNames : (anchors.map Anchor.name).Nodup := by
    rw [← Registry.map_fst_declared, hAnchors]
    exact h.anchors
  obtain ⟨registry, hRegistry, _⟩ := Registry.ofList_of_nodup hNames
  obtain ⟨l, hLayout, hHolds, hPlaced⟩ := hDrawn registry hRegistry
  have hFills : ∀ s ∈ l.signals, ∀ p ∈ s.segments, d.options.Fills p.segment := by
    intro s hs p hp
    obtain ⟨c, hc, hSegments⟩ := hHolds.exists_segments hs
    obtain ⟨t, ht, hCompile⟩ := exists_of_mem_forall₂ hCompiled hc
    apply fills_of_compile hColours (hPeriods t ht) hCompile
    exact hSegments ▸ List.mem_map_of_mem hp
  obtain ⟨edges, hEdges⟩ : Succeeds (d.edges.mapM (EdgeResult.ofSpec l.anchors)) :=
    Succeeds.mapM fun spec _ => succeeds_ofSpec hPlaced.anchors spec
  have hLabels : ∀ path, .resolved path ∈ edges →
      ∀ label ∈ path.spec.label, Small (K := K) label.length := by
    intro path hPath
    obtain ⟨spec, hSpec, hResult⟩ := exists_of_mem_forall₂ (forall₂_of_mapM hEdges) hPath
    rw [EdgeResult.spec_of_ofSpec hResult]
    exact hSteady.labels spec hSpec
  obtain ⟨primitives, hPrimitives⟩ := Figure.succeeds_emit hPlaced hSteady.options hFills hLabels
  rw [outcome_render]
  simp only [hItems, hPlaced.compute_eq_ok hLayout, outcome_resolveEdges, hEdges, hPrimitives,
    liftM_ok, ok_bind]
  exact succeeds_pure _

/-- A document that there is room for is refused for its fault. -/
theorem Steady.render_of_offence [BEq K] (hSteady : d.Steady)
    (hPeriods : ∀ s ∈ d.signals, 1 ≤ s.period) (h : d.Offence e) : d.render.outcome = .error e := by
  rw [outcome_render]
  cases h with
  | signal hSplit hFirst hFault => rw [compile_of_offence hSplit hFirst hFault, error_bind]
  | anchor hSound hClash =>
      obtain ⟨items, hItems, hCompiled⟩ := compile_of_sound hSound
      obtain ⟨anchors, hAnchors, hError, _⟩ := Layout.ofItems_registers hSteady.options
        (hSteady.compiled hItems hCompiled) d.head d.foot
      rw [flatMap_declared hPeriods hCompiled] at hAnchors
      have hTaken : Registry.ofList anchors = .error e :=
        Registry.ofList_of_nameClash (hAnchors ▸ hClash)
      rw [hItems, ok_bind, Layout.compute_eq_error (hError e hTaken), error_bind]

end Steady

section Exact

variable [Field K] [LinearOrder K] [IsStrictOrderedRing K] [FloorRing K] [Scalar K]
  [ExactScalar K]

/-- In exact arithmetic there is room for every document. -/
theorem steady_exact (d : Document K) : d.Steady where
  options := ⟨fun _ => trivial, trivial, fun _ _ _ => trivial⟩
  signals s _ c _ := {
    name := trivial
    length := trivial
    columns := trivial
    spans _ _ := ⟨trivial, trivial⟩
    gaps _ _ _ _ := ⟨trivial, trivial⟩
    trains seg _ _ := by
      obtain ⟨train, hTrain⟩ := Pulse.succeeds_train (Scalar.whole seg.cycles)
        (Scalar.whole c.signal.period) c.signal.phase seg.isRising
      exact ⟨train, hTrain, fun _ _ => trivial⟩ }
  depths _ _ := trivial
  labels _ _ _ _ := trivial

theorem render_of_sound (hValid : d.Valid) (h : d.Sound) : Succeeds d.render.outcome :=
  d.steady_exact.succeeds_render hValid.periods hValid.options.colours h

theorem render_of_offence (hValid : d.Valid) (h : d.Offence e) : d.render.outcome = .error e :=
  d.steady_exact.render_of_offence hValid.periods h

/-- In exact arithmetic there is nothing in a figure that cannot be computed. -/
theorem Valid.ne_fault (hValid : d.Valid) (cause : Fault) :
    d.render.outcome ≠ .error (.fault cause) := by
  intro h
  rcases d.sound_or_offence with hSound | ⟨e, hOffence⟩
  · exact succeeds_iff.mp (render_of_sound hValid hSound) _ h
  · rw [render_of_offence hValid hOffence] at h
    exact hOffence.ne_fault cause (Except.error.inj h)

end Exact

end Document

namespace Description

section Exact

variable {K : Type} [Field K] [LinearOrder K] [IsStrictOrderedRing K] [FloorRing K] [Scalar K]
  [ExactScalar K]

/-- A document that loads is drawn exactly when it is sound, and otherwise refused exactly for
its first fault. A description that is no raw one is a valid document, and options in place of
its own have passed their checks. Drawing never misses the level of a line or the colour of a
box. -/
theorem render_draws_or_refuses {description : Description K} {options : Option (Options K)}
    {d : Document K} (hPromised : description.Promised)
    (hOptions : ∀ o ∈ options, o.check = .ok ())
    (hLoad : (description.load options).outcome = .ok d) :
    (Succeeds (description.render options).outcome ↔ d.Sound) ∧
      (∀ e, (description.render options).outcome = .error e ↔ d.Offence e) ∧
      ∀ s ∈ d.signals, ∀ c, s.compile.outcome = .ok c → ∀ seg ∈ c.segments,
        (seg.kind = .level → seg.level ≠ none) ∧
          (seg.kind = .data → Succeeds (d.options.background seg.color)) := by
  have hValid := valid_of_load hPromised hOptions hLoad
  have hRender : (description.render options).outcome = d.render.outcome := by
    rw [render, Logged.outcome_bind, hLoad, ok_bind]
  rw [hRender]
  obtain ⟨hDrawn, hRefused⟩ := succeeds_iff_and_error_iff d.sound_or_offence
    (Document.render_of_sound hValid) fun _ => Document.render_of_offence hValid
  refine ⟨hDrawn, hRefused, fun s hs c hc seg hSeg => ?_⟩
  have hPeriod := hValid.periods s hs
  exact ⟨(drawable_of_compile hPeriod hc seg hSeg).1,
    Document.fills_of_compile hValid.options.colours hPeriod hc seg hSeg⟩

end Exact

/-- Two lanes, each with an anchor at its edge. -/
noncomputable def handshake (second : String) : Document ℝ where
  items := [
    .signal { name := "req", wave := "01", node := .names [none, some "a"], phase := 0 },
    .signal { name := "ack", wave := "0.1", node := .names [none, none, some second], phase := 0 }]
  edges := [{ source := "a", target := "b" }]
  options := Options.default
  head := none
  foot := none

theorem handshake_promised (second : String) : (parsed (handshake second)).Promised := by
  rintro _ ⟨⟩
  refine ⟨fun s hs => ?_, Options.accepted_default⟩
  rw [Document.signals, Item.signals_eq_leavesAll] at hs
  simp only [handshake, Item.leavesAll, Item.leaves, List.cons_append, List.nil_append,
    List.mem_cons, List.not_mem_nil, or_false] at hs
  rcases hs with rfl | rfl <;> exact le_rfl

theorem signals_handshake (second : String) : (handshake second).signals = [
    { name := "req", wave := "01", node := .names [none, some "a"], phase := 0 },
    { name := "ack", wave := "0.1", node := .names [none, none, some second], phase := 0 }] := by
  rw [Document.signals, Item.signals_eq_leavesAll]
  rfl

theorem sound_handshake (second : String) : ∀ s ∈ (handshake second).signals, s.Sound := by
  have hLow : Glyph.Valid ⟨'0', .low, none⟩ := ⟨rfl, by simp⟩
  have hHigh : Glyph.Valid ⟨'1', .high, none⟩ := ⟨rfl, by simp⟩
  have hAgain : Glyph.Valid ⟨'.', .again, none⟩ := ⟨rfl, by simp⟩
  rw [signals_handshake]
  refine List.forall_mem_cons.mpr ⟨?_, List.forall_mem_singleton.mpr ?_⟩
  · have hSpell : "01".toList = Glyph.spell [⟨'0', .low, none⟩, ⟨'1', .high, none⟩] := by decide
    exact ⟨_, ⟨by simp [hLow, hHigh], hSpell⟩, by simp,
      fun i hi => NodeSpec.anchorAt_eq_none hi, by simp [Signal.CutAt]⟩
  · have hSpell : "0.1".toList =
        Glyph.spell [⟨'0', .low, none⟩, ⟨'.', .again, none⟩, ⟨'1', .high, none⟩] := by decide
    exact ⟨_, ⟨by simp [hLow, hHigh, hAgain], hSpell⟩, by simp,
      fun i hi => NodeSpec.anchorAt_eq_none hi, by simp [Signal.CutAt]⟩

theorem declaredAnchors_handshake {second : String} (h : second ≠ "") :
    (handshake second).declaredAnchors =
      [("a", ⟨"req", some 1⟩), (second, ⟨"ack", some 2⟩)] := by
  rw [Document.declaredAnchors, signals_handshake]
  simp [Signal.anchors, NodeSpec.toNames, NodeSpec.anchorAt, List.range_succ, h]

/-- The two lanes can be drawn together when their anchors differ. -/
theorem handshake_sound {second : String} (hNamed : second ≠ "") (hOther : second ≠ "a") :
    (handshake second).Sound := by
  refine ⟨sound_handshake second, ?_⟩
  rw [declaredAnchors_handshake hNamed]
  simpa using hOther.symm

/-- Both lanes are drawn when their anchors differ, and the second anchor is refused when they
do not. -/
theorem render_draws_or_refuses_handshake :
    Succeeds ((parsed (handshake "b")).render none).outcome ∧
      ((parsed (handshake "a")).render none).outcome =
        .error (.malformed (.anchorTaken "a" "req") ⟨"ack", some 2⟩) := by
  have hLoad (second : String) :
      ((parsed (handshake second)).load none).outcome = .ok (handshake second) := rfl
  constructor
  · refine (render_draws_or_refuses (handshake_promised "b") (by simp) (hLoad "b")).1.mpr ?_
    refine ⟨sound_handshake "b", ?_⟩
    rw [declaredAnchors_handshake (by decide)]
    decide
  · refine ((render_draws_or_refuses (handshake_promised "a") (by simp) (hLoad "a")).2.1 _).mpr ?_
    apply Document.Offence.anchor (sound_handshake "a")
    rw [declaredAnchors_handshake (by decide)]
    have hKnown : ("a", ⟨"req", some 1⟩) ∈ [("a", (⟨"req", some 1⟩ : Place))] := by decide
    exact .taken (by decide) hKnown

end Description

end TimingDiagram
