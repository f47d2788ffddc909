import TimingDiagram.Proofs.Figure.BrokenEdges
import TimingDiagram.Proofs.Figure.Capacity
import TimingDiagram.Proofs.Sample.Documents

/-! Samples render. Whatever is drawn at random, a sample whose waves there is room for has a figure
under the default options, without warnings, with all its signals, groups, anchors and labels. -/
namespace TimingDiagram
namespace Sample

theorem anchorName_injective : Function.Injective anchorName := by
  intro i j h
  have hDigits : Nat.toDigits 10 i = Nat.toDigits 10 j := by
    simpa [anchorName] using congrArg String.toList h
  rw [← Nat.ofDigitChars_toDigits (b := 10) (n := i) (by decide) le_rfl, hDigits,
    Nat.ofDigitChars_toDigits (by decide) le_rfl]

/-- A later signal has no shorter name. -/
theorem length_signalName_le {i j : Nat} (h : i ≤ j) :
    (signalName i).length ≤ (signalName j).length := by
  have hDigits : (Nat.repr i).length ≤ (Nat.repr j).length :=
    (Nat.length_repr_le_iff Nat.length_repr_pos).mpr
      (h.trans_lt ((Nat.length_repr_le_iff Nat.length_repr_pos).mp le_rfl))
  simpa [signalName] using hDigits

section Lists

variable {α β γ : Type} {r : α → β → Prop} {l : List α} {m : List β}

theorem map_eq_of_forall₂ {f : β → γ} {g : α → γ} (h : List.Forall₂ r l m)
    (hEq : ∀ a b, r a b → f b = g a) : m.map f = l.map g := by
  induction h with
  | nil => rfl
  | cons hFirst _ ih => rw [List.map_cons, List.map_cons, hEq _ _ hFirst, ih]

end Lists

section Shape

variable {K : Type} {α : Type}

theorem leavesAll_map_signal (l : List α) : Item.leavesAll (l.map .signal) = l := by
  induction l with
  | nil => rfl
  | cons a l ih => rw [List.map_cons, Item.leavesAll, ih, Item.leaves, List.singleton_append]

theorem leavesAll_groups (name : Nat → String) (groups : List (List α)) :
    Item.leavesAll (groups.mapIdx fun i members => .group (some (name i)) (members.map .signal)) =
      groups.flatten := by
  induction groups generalizing name with
  | nil => rfl
  | cons members groups ih =>
      rw [List.mapIdx_cons, Item.leavesAll, Item.leaves, leavesAll_map_signal, List.flatten_cons]
      congr 1
      exact ih fun i => name (i + 1)

theorem leavesAll_itemsOf [Scalar K] (groupEvery : Int) (signals : List (Signal K)) :
    Item.leavesAll (itemsOf groupEvery signals) = signals := by
  rw [itemsOf]
  split_ifs
  · rw [leavesAll_groups, (split_chunks _ signals).whole]
  · exact leavesAll_map_signal signals

theorem depth_of_mem_signals {depth : Nat} {l : List α} :
    ∀ step ∈ Item.stepsAll depth (l.map .signal), step.2 = depth := by
  induction l with
  | nil => simp [Item.stepsAll]
  | cons a l ih => simpa [Item.stepsAll, Item.steps] using ih

theorem depth_of_mem_groups {depth : Nat} (name : Nat → String) (groups : List (List α)) :
    ∀ step ∈ Item.stepsAll depth
      (groups.mapIdx fun i members => .group (some (name i)) (members.map .signal)),
      step.2 ≤ depth + 1 := by
  induction groups generalizing name with
  | nil => simp [Item.stepsAll]
  | cons members groups ih =>
      rw [List.mapIdx_cons, Item.stepsAll, Item.steps]
      intro step hStep
      rcases List.mem_append.mp hStep with hStep | hStep
      · rcases List.mem_append.mp hStep with hStep | hStep
        · rcases List.mem_cons.mp hStep with rfl | hStep
          · exact Nat.le_succ depth
          · exact (depth_of_mem_signals step hStep).le
        · rw [List.mem_singleton.mp hStep]
          exact Nat.le_succ depth
      · exact ih (fun i => name (i + 1)) step hStep

theorem depth_of_mem_itemsOf [Scalar K] (groupEvery : Int) (signals : List (Signal K)) :
    ∀ step ∈ Item.stepsAll 0 (itemsOf groupEvery signals), step.2 ≤ 1 := by
  rw [itemsOf]
  split_ifs
  · exact depth_of_mem_groups groupName _
  · intro step hStep
    rw [depth_of_mem_signals step hStep]
    exact Nat.zero_le 1

end Shape

namespace IsSample

section Reading

variable {K : Type} [Scalar K] {signals cycles groupEvery edges : Int} {o : Options K}
  {parts : List Draft} {doc : Document K}

theorem signals_eq (h : IsSample signals cycles groupEvery edges o parts doc) :
    doc.signals = (clockPart cycles.toNat :: parts).map Draft.signal := by
  rw [Document.signals, Item.signals_eq_leavesAll, h.items, Item.leavesAll, Item.leaves,
    leavesAll_itemsOf, List.map_cons, List.singleton_append]

theorem fits (h : IsSample signals cycles groupEvery edges o parts doc) :
    ∀ p ∈ clockPart cycles.toNat :: parts, p.Fits cycles.toNat := by
  refine List.forall_mem_cons.mpr ⟨fits_clockPart _, fun p hp => ?_⟩
  obtain ⟨i, _, hSignal⟩ := exists_of_mem_forall₂ h.drawn hp
  exact hSignal.fits

theorem names_eq (h : IsSample signals cycles groupEvery edges o parts doc) :
    doc.signals.map Signal.name = "clk" :: (List.range signals.toNat).map signalName := by
  rw [h.signals_eq, List.map_map, List.map_cons]
  exact congrArg _ (map_eq_of_forall₂ h.drawn fun i p hp => hp.name)

/-- The anchors are those of the signals that are drawn, as far as there are any. -/
theorem anchorNames_eq (h : IsSample signals cycles groupEvery edges o parts doc) :
    doc.anchorNames =
      if anchored cycles edges then (List.range signals.toNat).map anchorName else [] := by
  have hOne : ∀ p ∈ clockPart cycles.toNat :: parts,
      (p.signal : Signal K).anchors.map Prod.fst = (p.anchor.map Prod.snd).toList := by
    intro p hp
    rw [anchors_signal (h.fits p hp)]
    cases p.anchor <;> rfl
  have hAll : doc.anchorNames =
      (clockPart cycles.toNat :: parts).flatMap fun p => (p.anchor.map Prod.snd).toList := by
    rw [Document.anchorNames, Document.declaredAnchors, h.signals_eq, List.map_flatMap,
      List.flatMap_map]
    refine List.flatMap_congr fun p hp => ?_
    rw [List.map_map]
    exact hOne p hp
  have hDrawn : parts.map (fun p => (p.anchor.map Prod.snd).toList) =
      (List.range signals.toNat).map fun i =>
        (if anchored cycles edges then some (anchorName i) else none).toList :=
    map_eq_of_forall₂ h.drawn fun i p hp => by rw [hp.anchor]
  rw [hAll, List.flatMap_cons]
  change [] ++ (parts.map fun p => (p.anchor.map Prod.snd).toList).flatten = _
  rw [List.nil_append, hDrawn]
  split_ifs
  · change ((List.range signals.toNat).map fun i => [anchorName i]).flatten = _
    rw [← List.flatMap_def, List.map_eq_flatMap]
  · simp

theorem nodup_anchorNames (h : IsSample signals cycles groupEvery edges o parts doc) :
    doc.anchorNames.Nodup := by
  rw [h.anchorNames_eq]
  split_ifs
  · exact List.nodup_range.map anchorName_injective
  · exact List.nodup_nil

theorem sound (h : IsSample signals cycles groupEvery edges o parts doc) : doc.Sound where
  signals := by
    rw [h.signals_eq]
    exact List.forall_mem_map.mpr fun p hp => sound_signal (h.fits p hp)
  anchors := h.nodup_anchorNames

/-- Every edge ends at anchors of the sample. -/
theorem brokenEdges_eq_nil (h : IsSample signals cycles groupEvery edges o parts doc) :
    doc.brokenEdges = [] := by
  rw [Document.brokenEdges, List.filter_eq_nil_iff]
  intro e he
  obtain ⟨hAnchored, a, ha, b, hb, _, rfl⟩ := h.edges e he
  rw [EdgeSpec.isWhole, h.anchorNames_eq, if_pos hAnchored]
  have hEnd (i : Nat) (hi : i < signals.toNat) :
      ((List.range signals.toNat).map anchorName).contains (anchorName i) = true :=
    List.contains_iff_mem.mpr (List.mem_map_of_mem (List.mem_range.mpr hi))
  simp only [edgeOf, hEnd a ha, hEnd b hb, Bool.and_self, Bool.not_true, Bool.false_eq_true,
    not_false_eq_true]

end Reading

variable [Memory] {signals cycles groupEvery edges : Int} {o : Options Quantity}
  {parts : List Draft} {doc : Document Quantity}

theorem plain (h : IsSample signals cycles groupEvery edges o parts doc)
    (hNames : ((signalName signals.toNat).length : Int) < Room.countRange) :
    ∀ s ∈ doc.signals, s.Plain := by
  intro s hs
  have hPhase : ∃ x, Binary.Within 20 x ∧
      (Scalar.ofNumber (.real 0.0) : Quantity) = Quantity.known (.real x) :=
    ⟨0.0, Binary.within_iff.mpr ⟨⟨false, 0, -1074⟩, rfl, by simp [Dyadic.magnitude]⟩, rfl⟩
  have hName : s.name ∈ doc.signals.map Signal.name := List.mem_map_of_mem hs
  rw [h.signals_eq] at hs
  obtain ⟨p, _, rfl⟩ := List.mem_map.mp hs
  refine ⟨rfl, hPhase, ?_⟩
  rw [h.names_eq] at hName
  rcases List.mem_cons.mp hName with hName | hName
  · rw [hName]
    decide
  · obtain ⟨i, hi, hName⟩ := List.mem_map.mp hName
    rw [← hName]
    exact (Nat.cast_le.mpr (length_signalName_le (List.mem_range.mp hi).le)).trans_lt hNames

theorem length_of_compile (h : IsSample signals cycles groupEvery edges o parts doc)
    {s : Signal Quantity} (hs : s ∈ doc.signals) {c : Compiled Quantity}
    (hc : s.compile.outcome = .ok c) : c.length = cycles.toNat := by
  rw [h.signals_eq] at hs
  obtain ⟨p, hp, rfl⟩ := List.mem_map.mp hs
  obtain ⟨_, _, _, hLength⟩ := Signal.of_compile hc
  rw [hLength, (tokens_of_compile (h.fits p hp) hc).1]
  exact Nat.mul_one _

theorem steady (h : IsSample signals cycles groupEvery edges Options.default parts doc)
    (hShort : cycles < Quantity.lengthLimit) (hRoom : cycles ≤ Memory.capacity)
    (hNames : ((signalName signals.toNat).length : Int) < Room.countRange) : doc.Steady := by
  refine Document.steady_of_plain h.options (h.plain hNames) ?_ ?_ ?_
  · intro s hs c hc
    rw [h.length_of_compile hs hc]
    have hSome : 0 < Quantity.lengthLimit := by decide
    omega
  · intro step hStep
    rw [Item.walk_eq_stepsAll, h.items, Item.stepsAll, Item.steps] at hStep
    have hShallow : step.2 ≤ 1 := by
      rcases List.mem_append.mp hStep with hStep | hStep
      · rw [List.mem_singleton.mp hStep]
        exact Nat.zero_le 1
      · exact depth_of_mem_itemsOf groupEvery _ step hStep
    exact (Nat.cast_le.mpr hShallow).trans_lt (by decide)
  · intro e he label hLabel
    obtain ⟨_, a, _, b, _, _, rfl⟩ := h.edges e he
    cases hLabel

/-- The signals of a sample follow its clock, in groups when their size is positive. -/
theorem items_eq (h : IsSample signals cycles groupEvery edges o parts doc) :
    (groupEvery ≤ 0 → doc.items =
      .signal (clockPart cycles.toNat).signal :: (parts.map Draft.signal).map .signal) ∧
    (0 < groupEvery → ∃ groups, Split groupEvery.toNat (parts.map Draft.signal) groups ∧
      doc.items = .signal (clockPart cycles.toNat).signal :: groups.mapIdx fun i members =>
        .group (some (groupName i)) (members.map .signal)) := by
  refine ⟨fun hNone => ?_, fun hSome => ?_⟩
  · rw [h.items, itemsOf, if_neg (not_lt.mpr hNone)]
  · refine ⟨_, ?_, by rw [h.items, itemsOf, if_pos hSome]⟩
    have hSize : groupEvery.toNat - 1 + 1 = groupEvery.toNat := by omega
    exact hSize ▸ split_chunks (groupEvery.toNat - 1) (parts.map Draft.signal)

/-- A sample that there is room for is drawn without a warning. -/
theorem exists_render (h : IsSample signals cycles groupEvery edges Options.default parts doc)
    (hShort : cycles < Quantity.lengthLimit) (hRoom : cycles ≤ Memory.capacity)
    (hNames : ((signalName signals.toNat).length : Int) < Room.countRange) :
    ∃ g l, doc.render.outcome = .ok g ∧ g.warnings = [] ∧ doc.render.alerts = [] ∧
      g.layout = some l ∧ l.anchors.names = doc.anchorNames := by
  have hPeriods : ∀ s ∈ doc.signals, 1 ≤ s.period := by
    intro s hs
    exact (h.plain hNames s hs).period.ge
  have hColours : 8 ≤ doc.options.backgrounds.length := by
    rw [h.options]
    exact le_refl 8
  obtain ⟨g, hg⟩ := (h.steady hShort hRoom hNames).succeeds_render hPeriods hColours h.sound
  obtain ⟨hWarnings, hAlerts⟩ := Document.alerts_render hPeriods hg
  rw [h.brokenEdges_eq_nil] at hWarnings hAlerts
  obtain ⟨items, l, edges, hItems, hLayout, _, _, hDiagram⟩ := Document.of_render hg
  exact ⟨g, l, hg, hWarnings, hAlerts, by rw [hDiagram],
    Document.names_of_layout hPeriods hItems hLayout⟩

/-- A sample with more cycles than fit in an array has no figure. -/
theorem render_of_overflow (h : IsSample signals cycles groupEvery edges o parts doc)
    (hLong : Quantity.lengthLimit ≤ cycles) : doc.render.outcome = .error (.fault .badValue) := by
  have hClock : (clockPart cycles.toNat).signal ∈ doc.signals := by
    rw [h.signals_eq]
    exact List.mem_cons_self
  obtain ⟨c, hc⟩ := Signal.compile_of_sound (h.sound.signals _ hClock)
  refine Document.render_of_overflow h.sound.signals hClock hc ?_
  rw [h.length_of_compile hClock hc]
  omega

/-- Every signal of a sample is compiled, and its boxes have their labels. -/
theorem exists_compile (h : IsSample signals cycles groupEvery edges o parts doc) :
    ∀ s ∈ doc.signals, ∃ c, s.compile.outcome = .ok c ∧
      ((c.segments.filter Segment.isFreshBox).map fun seg => (seg.start, seg.label)) =
        (c.tokens.filter fun t => t.tag = .data).mapIdx fun k t =>
          ((t.index : Int), some (Draft.label k)) := by
  intro s hs
  obtain ⟨c, hc⟩ := Signal.compile_of_sound (h.sound.signals s hs)
  rw [h.signals_eq] at hs
  obtain ⟨p, hp, rfl⟩ := List.mem_map.mp hs
  exact ⟨c, hc, labels_of_compile (h.fits p hp) hc⟩

end IsSample

variable {σ : Type} {d : Draws σ}

/-- A sample wave is read as one token for each cycle. -/
theorem lex_wave (hDraws : d.Bounded) {seed : Int} (hLow : 0 ≤ seed) (hHigh : seed ≤ largestSeed)
    {cycles : Int} (hCycles : 0 ≤ cycles) (bias : Number) (signal : String) :
    ∃ text tokens, wave d cycles seed bias = .ok text ∧
      lex text .absent signal none = .ok tokens ∧ (tokens.length : Int) = cycles := by
  obtain ⟨cs, hWave, hPlayable, hLength⟩ := exists_wave hDraws hLow hHigh cycles bias
  have hFits : (⟨signal, cs, none⟩ : Draft).Fits cycles.toNat := {
    known := fun c hc => List.mem_cons_of_mem _ (hPlayable.symbols c hc)
    opening := fun c hc => opening_ne_again c (hPlayable.opening c hc)
    length := hLength
    anchor := by simp }
  obtain ⟨c, hc⟩ := Signal.compile_of_sound (sound_signal (K := Quantity) hFits)
  refine ⟨_, c.tokens, hWave, (Signal.of_compile hc).2.1, ?_⟩
  rw [(tokens_of_compile hFits hc).1]
  omega

/-- A sample is drawn as its document is. -/
theorem outcome_render_raw [Memory] {raw : Value} {doc : Document Quantity}
    (h : (Document.parse raw Options.default).outcome = .ok doc) :
    ((Description.raw raw : Description Quantity).render none).outcome = doc.render.outcome ∧
      ((Description.raw raw : Description Quantity).render none).alerts = doc.render.alerts := by
  have hLoad : ((Description.raw raw : Description Quantity).load none).outcome = .ok doc := h
  constructor
  · rw [Description.render, Logged.outcome_bind, hLoad, ok_bind]
  · rw [Description.render, Logged.alerts_bind_of_ok hLoad, Description.alerts_load, List.nil_append]

/-- There is no sample with more cycles than a text can be repeated. -/
theorem document_eq_error [Memory] (d : Draws σ) (signals groupEvery edges : Int) {cycles seed : Int}
    (hLow : 0 ≤ seed) (hHigh : seed ≤ largestSeed) (hLong : Room.countRange < cycles) :
    document d signals cycles seed groupEvery edges = .error .tooLarge := by
  have hSome : ¬ cycles ≤ 0 := by
    have hRange : 0 < Room.countRange := by decide
    omega
  have hCopies : Room.copies 1 (cycles - 1) = .error .tooLarge := by
    rw [Room.copies, if_pos (by simp; omega)]
    rfl
  have hClock : clock cycles false false = .error .tooLarge := by
    rw [clock, if_neg hSome, Room.repeated]
    simp only [List.length_singleton, hCopies, error_bind]
  rw [document, seeded_eq hLow hHigh, ok_bind, hClock, error_bind]

/-- Whatever is drawn, a sample wave is read as one token for each cycle. A sample document is drawn
where its cycles can be counted and there is room for them. Its signals are its clock and the others in
the order of their numbers, in groups of one size when that is positive, and in every signal each data
token opens a box that has the label of its number. Its figure under the default options has no
warnings, and its anchors differ, one for each signal when there are to be edges and there are cycles;
only where an array cannot have so many columns there is no figure. -/
theorem document_renders [Memory] (hDraws : d.Bounded) (signals groupEvery edges : Int)
    {cycles seed : Int} (hLow : 0 ≤ seed) (hHigh : seed ≤ largestSeed) (hCycles : 0 ≤ cycles)
    (hRoom : cycles ≤ Memory.capacity)
    (hNames : (("s" ++ toString signals.toNat).length : Int) < Room.countRange) :
    (∀ (n : Int) (bias : Number) (signal : String), 0 ≤ n → ∃ text tokens,
      wave d n seed bias = .ok text ∧ lex text .absent signal none = .ok tokens ∧
        (tokens.length : Int) = n) ∧
    (Room.countRange < cycles →
      document d signals cycles seed groupEvery edges = .error .tooLarge) ∧
    (cycles ≤ Room.countRange → ∃ raw doc clock body,
      document d signals cycles seed groupEvery edges = .ok raw ∧
      ((Description.raw raw : Description Quantity).load none).outcome = .ok doc ∧
      doc.signals = clock :: body ∧ clock.name = "clk" ∧
      body.map Signal.name = (List.range signals.toNat).map (fun i => "s" ++ toString i) ∧
      (groupEvery ≤ 0 → doc.items = .signal clock :: body.map .signal) ∧
      (0 < groupEvery → ∃ groups, Split groupEvery.toNat body groups ∧
        doc.items = .signal clock :: groups.mapIdx fun i members =>
          .group (some ("g" ++ toString i)) (members.map .signal)) ∧
      (∀ s ∈ doc.signals, ∃ c, s.compile.outcome = .ok c ∧
        ((c.segments.filter fun seg => seg.kind = .data && !seg.continuation).map
            fun seg => (seg.start, seg.label)) =
          (c.tokens.filter fun t => t.tag = .data).mapIdx fun k t =>
            ((t.index : Int), some ("D" ++ toString k))) ∧
      (Quantity.lengthLimit ≤ cycles →
        ((Description.raw raw : Description Quantity).render none).outcome =
          .error (.fault .badValue)) ∧
      (cycles < Quantity.lengthLimit → ∃ g l,
        ((Description.raw raw : Description Quantity).render none).outcome = .ok g ∧
        g.warnings = [] ∧ ((Description.raw raw : Description Quantity).render none).alerts = [] ∧
        g.layout = some l ∧ l.anchors.names.Nodup ∧
        (0 < edges → 0 < cycles →
          l.anchors.names = (List.range signals.toNat).map fun i => "n" ++ toString i))) := by
  refine ⟨fun n bias signal hn => lex_wave hDraws hLow hHigh hn bias signal,
    document_eq_error d signals groupEvery edges hLow hHigh, fun hRange => ?_⟩
  obtain ⟨raw, parts, doc, hRaw, hDoc, h⟩ := exists_document (K := Quantity) hDraws hCycles hRange
    hRoom hLow hHigh signals groupEvery edges Options.default
  obtain ⟨hRender, hAlerts⟩ := outcome_render_raw hDoc
  refine ⟨raw, doc, (clockPart cycles.toNat).signal, parts.map Draft.signal, hRaw, hDoc,
    h.signals_eq, rfl, ?_, h.items_eq.1, h.items_eq.2, h.exists_compile, fun hLong => ?_,
    fun hShort => ?_⟩
  · rw [List.map_map]
    exact map_eq_of_forall₂ h.drawn fun i p hp => hp.name
  · rw [hRender, h.render_of_overflow hLong]
  · obtain ⟨g, l, hg, hWarnings, hNone, hLayout, hAnchors⟩ := h.exists_render hShort hRoom hNames
    refine ⟨g, l, hRender.trans hg, hWarnings, hAlerts.trans hNone, hLayout,
      hAnchors ▸ h.nodup_anchorNames, fun hEdges hSome => ?_⟩
    have hAnchored : anchored cycles edges = true := by
      rw [anchored, Bool.and_eq_true, bne_iff_ne, bne_iff_ne]
      omega
    rw [hAnchors, h.anchorNames_eq, if_pos hAnchored]
    rfl

/-- Two signals in groups of their own are drawn with an edge between them. -/
theorem document_renders_pair : twisterDraws.Bounded ∧
    ∃ raw doc g l, document twisterDraws 2 3 7 1 1 = .ok raw ∧
      ((Description.raw raw : Description Quantity).load none).outcome = .ok doc ∧
      ((Description.raw raw : Description Quantity).render none).outcome = .ok g ∧
      g.warnings = [] ∧ doc.signals.map Signal.name = ["clk", "s0", "s1"] ∧
      g.layout = some l ∧ l.anchors.names = ["n0", "n1"] := by
  obtain ⟨_, _, hDrawn⟩ := document_renders bounded_twisterDraws 2 1 1
    (show (0 : Int) ≤ 7 by decide) (by decide) (show (0 : Int) ≤ 3 by decide) (by decide) (by decide)
  obtain ⟨raw, doc, clock, body, hRaw, hLoad, hSignals, hClock, hBody, _, _, _, _, hFigure⟩ :=
    hDrawn (by decide)
  obtain ⟨g, l, hRender, hWarnings, _, hLayout, _, hAnchors⟩ := hFigure (by decide)
  refine ⟨bounded_twisterDraws, raw, doc, g, l, hRaw, hLoad, hRender, hWarnings, ?_, hLayout,
    hAnchors (by decide) (by decide)⟩
  rw [hSignals, List.map_cons, hClock, hBody]
  rfl

/-- A text cannot be repeated as often as the clock of one sample asks for, and where memory has no end
the sample with as many cycles as no array has columns is drawn at random but not as a figure. -/
theorem document_tooLarge : document twisterDraws 0 (2 ^ 63 + 1) 0 0 0 = .error .tooLarge ∧
    ∃ (_ : Memory) (raw : Value), document twisterDraws 0 (2 ^ 60) 0 0 0 = .ok raw ∧
      ((Description.raw raw : Description Quantity).render none).outcome =
        .error (.fault .badValue) := by
  refine ⟨rfl, ⟨2 ^ 61⟩, ?_⟩
  let _ : Memory := ⟨2 ^ 61⟩
  obtain ⟨raw, parts, doc, hRaw, hDoc, h⟩ := exists_document (K := Quantity) bounded_twisterDraws
    (show (0 : Int) ≤ 2 ^ 60 by decide) (by decide) (by decide) (show (0 : Int) ≤ 0 by decide)
    (by decide) 0 0 0 Options.default
  exact ⟨raw, hRaw, (outcome_render_raw hDoc).1.trans (h.render_of_overflow (by decide))⟩

end Sample
end TimingDiagram
