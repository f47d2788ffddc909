import TimingDiagram.Figure.Verify
import TimingDiagram.Proofs.Figure.BrokenEdges
import TimingDiagram.Proofs.Figure.Equality
import TimingDiagram.Proofs.Layout.Descent
import TimingDiagram.Proofs.Layout.Widths
import TimingDiagram.Proofs.Number.Sum
import TimingDiagram.Proofs.Wave.Merging

/-! The checks of a rendered document in exact arithmetic. Each one but the order of the lanes passes
whatever the options; that one passes exactly when the tops of the lanes increase, which the options
do not have to provide for. -/
namespace TimingDiagram
namespace Verify

theorem outcome_forM_failures (r : Report) :
    (r.failures.forM fun c => Logged.tell (failureRecord c)).outcome = .ok () := by
  rw [List.forM_eq_forM, ← List.forM_map]
  exact Logged.outcome_forM_tell _

section Signals

variable {K : Type} {d : Document K}

theorem outcome_firstFinding {name : String} {examine : Signal K → Logged (Option String)}
    {signals : List (Signal K)} (h : ∀ s ∈ signals, (examine s).outcome = .ok none) :
    (firstFinding name examine signals).outcome = .ok ⟨name, true, ""⟩ := by
  induction signals with
  | nil => rfl
  | cons s rest ih =>
      obtain ⟨hFirst, hRest⟩ := List.forall_mem_cons.mp h
      rw [firstFinding, Logged.outcome_bind, hFirst, ok_bind]
      exact ih hRest

theorem outcome_lexingDeterministic (h : ∀ s ∈ d.signals, Succeeds s.compile.outcome) :
    (lexingDeterministic d).outcome = .ok ⟨"lexing_deterministic", true, ""⟩ := by
  refine outcome_firstFinding fun s hs => ?_
  obtain ⟨c, hc⟩ := h s hs
  simp only [Logged.outcome_bind, Signal.outcome_lexed, (Signal.of_compile hc).2.1, ok_bind,
    if_true, Logged.outcome_pure]

theorem outcome_coalesceIdempotent (h : ∀ s ∈ d.signals, Succeeds s.compile.outcome) :
    (coalesceIdempotent d).outcome = .ok ⟨"coalesce_idempotent", true, ""⟩ := by
  refine outcome_firstFinding fun s hs => ?_
  obtain ⟨c, hc⟩ := h s hs
  obtain ⟨pieces, _, hSegments⟩ := Segment.resolve_eq_ok_iff.mp (Signal.of_compile hc).2.2.1
  have hMerged : Segment.coalesce c.segments = c.segments := by
    rw [← hSegments, Segment.coalesce_coalesce]
  simp only [Logged.outcome_bind, hc, ok_bind, hMerged, if_true, Logged.outcome_pure]

theorem outcome_cycleCoverage (hPeriods : ∀ s ∈ d.signals, 1 ≤ s.period)
    (h : ∀ s ∈ d.signals, Succeeds s.compile.outcome) :
    (cycleCoverage d).outcome = .ok ⟨"cycle_coverage", true, ""⟩ := by
  refine outcome_firstFinding fun s hs => ?_
  obtain ⟨c, hc⟩ := h s hs
  have hTotal : Segment.totalCycles c.segments = c.length := by
    rw [(tiles_of_compile (hPeriods s hs) hc).totalCycles, sub_zero]
  simp only [Logged.outcome_bind, hc, ok_bind, hTotal, if_true, Logged.outcome_pure]

end Signals

section Figures

variable {K : Type} [Add K] [Sub K] [Mul K] [Div K] [LT K] [LE K] [DecidableLT K] [DecidableLE K]
  [Max K] [Min K] [BEq K] [Scalar K] {d : Document K} {g : Diagram K} {l : Layout K}

theorem outcome_renderDeterministic [ReflBEq K] (h : d.render.outcome = .ok g) :
    (renderDeterministic d).outcome = .ok ⟨"render_deterministic", true, ""⟩ := by
  simp only [renderDeterministic, Logged.outcome_bind, h, ok_bind, beq_self_eq_true,
    Logged.outcome_pure]

theorem outcome_layoutOf (h : d.render.outcome = .ok g) :
    (layoutOf d).outcome = .ok (g, g.layout) := by
  simp only [layoutOf, Logged.outcome_bind, h, ok_bind, Logged.outcome_pure]

theorem outcome_canvasWidth (hRender : d.render.outcome = .ok g) (hLayout : g.layout = some l) :
    (canvasWidth d).outcome = .ok (ofFinding "canvas_width" (widthFinding l)) := by
  simp only [canvasWidth, Logged.outcome_bind, outcome_layoutOf hRender, ok_bind, hLayout,
    Option.bind_some, Logged.outcome_pure]

theorem outcome_laneOrder (hRender : d.render.outcome = .ok g) (hLayout : g.layout = some l) :
    (laneOrder d).outcome = .ok ⟨"lane_order",
      increasing (l.signals.map fun s => (Scalar.whole s.slot : K)) &&
        increasing (l.signals.map PlacedSignal.y), ""⟩ := by
  simp only [laneOrder, Logged.outcome_bind, outcome_layoutOf hRender, ok_bind, hLayout,
    Option.map_some, Option.getD_some, Logged.outcome_pure]

/-- The edges that the check finds broken are those without a warning of their own. -/
theorem outcome_edgeWarnings (hPeriods : ∀ s ∈ d.signals, 1 ≤ s.period)
    (hRender : d.render.outcome = .ok g) (hLayout : g.layout = some l)
    (hNames : l.anchors.names = d.anchorNames) :
    (edgeWarnings d).outcome = .ok ⟨"edge_warnings", true, ""⟩ := by
  have hBroken (e : EdgeSpec) : (!(l.anchors.find? e.source).isSome ||
      !(l.anchors.find? e.target).isSome) = !e.isWhole d.anchorNames := by
    rw [EdgeSpec.isWhole, ← hNames, Registry.contains_names, Registry.contains_names, Bool.not_and]
  have hCount : g.warnings.length = (d.edges.filter fun e => !e.isWhole d.anchorNames).length := by
    rw [(Document.alerts_render hPeriods hRender).1, List.length_map]
    rfl
  simp only [edgeWarnings, Logged.outcome_bind, outcome_layoutOf hRender, ok_bind, hLayout,
    Option.any_some, hBroken, hCount, if_true, Logged.outcome_pure]
  rfl

end Figures

section Exact

variable {K : Type} [Field K] [LinearOrder K] [IsStrictOrderedRing K] [FloorRing K] [Scalar K]
  [ExactScalar K] {d : Document K} {l : Layout K}

theorem increasing_iff {xs : List K} : increasing xs = true ↔ xs.Pairwise (· < ·) := by
  rw [← List.isChain_iff_pairwise]
  induction xs with
  | nil => simp [increasing]
  | cons a rest ih =>
      cases rest with
      | nil => simp [increasing]
      | cons b rest =>
          rw [increasing, Bool.and_eq_true, decide_eq_true_eq, ih, List.isChain_cons_cons,
            Scalar.zero_eq, sub_pos]

theorem differ_self (a : K) : differ a a = false := by
  simp [differ, tolerance]

/-- Nothing is wrong with the widths of a layout. -/
theorem widthFinding_of_layout (hPeriods : ∀ s ∈ d.signals, 1 ≤ s.period)
    (hOptions : d.options.Accepted) (h : (d.layout d.options).outcome = .ok l) :
    widthFinding l = none := by
  obtain ⟨hWidth, hLongest, hInside⟩ := Layout.widths_of_layout hPeriods hOptions h
  have hExpected : (if l.grid.total = 0 then 0
      else 0 + PairwiseSum.sum l.grid.widths.toList) = l.grid.width := by
    rw [hWidth, PairwiseSum.sum_eq, zero_add]
    split_ifs with hNone
    · rw [List.length_eq_zero_iff.mp hNone, List.sum_nil]
    · rfl
  have hFound : (l.signals.find? fun s =>
      !s.segments.isEmpty && decide (l.schemaX + l.grid.width + tolerance < s.x₁)) = none := by
    refine List.find?_eq_none.mpr fun s hs => ?_
    have hPositive : (0 : K) < tolerance := by simp [tolerance]
    rw [Bool.and_eq_true, decide_eq_true_eq, not_and, not_lt]
    intro hSome
    exact (hInside s hs (by simpa using hSome)).trans (le_add_of_nonneg_right hPositive.le)
  rw [widthFinding]
  simp only [Scalar.zero_eq, hExpected, differ_self, hFound, hLongest, Bool.false_eq_true, if_false]

variable {description : Description K} {options : Option (Options K)} {g : Diagram K}

/-- All checks pass but perhaps that of the lane order, which the tops of the lanes decide as the slots
always increase. -/
theorem outcome_run (hValid : d.Valid) (hLoad : (description.load options).outcome = .ok d)
    (hRender : d.render.outcome = .ok g) (hLayout : g.layout = some l) :
    (run description options).outcome = .ok ⟨[⟨"lexing_deterministic", true, ""⟩,
      ⟨"render_deterministic", true, ""⟩, ⟨"coalesce_idempotent", true, ""⟩,
      ⟨"cycle_coverage", true, ""⟩, ⟨"canvas_width", true, ""⟩,
      ⟨"lane_order", increasing (l.signals.map PlacedSignal.y), ""⟩,
      ⟨"edge_warnings", true, ""⟩]⟩ := by
  obtain ⟨items, hItems, hComputed, hPlaced⟩ := Document.placed_of_render hRender hLayout
  have hCompile : ∀ s ∈ d.signals, Succeeds s.compile.outcome := fun s hs =>
    Document.compile_of_render hRender hs
  have hWidth := outcome_canvasWidth hRender hLayout
  rw [widthFinding_of_layout hValid.periods hValid.options hPlaced] at hWidth
  have hNumbers : increasing (l.signals.map fun s => (Scalar.whole s.slot : K)) = true := by
    have hSlots := Layout.slots_of_layout hPlaced
    rw [increasing_iff]
    rw [List.pairwise_map] at hSlots ⊢
    exact hSlots.imp fun hLess => by simpa using hLess
  have hOrder := outcome_laneOrder hRender hLayout
  rw [hNumbers, Bool.true_and] at hOrder
  rw [run, Logged.outcome_bind, hLoad, ok_bind, Logged.outcome_bind, Logged.outcome_mapM]
  simp only [checks, List.mapM_cons, List.mapM_nil, outcome_lexingDeterministic hCompile,
    outcome_renderDeterministic hRender, outcome_coalesceIdempotent hCompile,
    outcome_cycleCoverage hValid.periods hCompile, hWidth, hOrder,
    outcome_edgeWarnings hValid.periods hRender hLayout
      (Document.names_of_layout hValid.periods hItems hComputed), ok_bind, pure_bind]
  rw [Logged.outcome_bind, outcome_forM_failures, ok_bind, Logged.outcome_pure]
  rfl

/-- Without groups the lanes of a figure go down exactly where they are few, or where a lane with its
spacing takes some height. -/
theorem descends_iff_of_render (hPeriods : ∀ s ∈ d.signals, 1 ≤ s.period)
    (hRender : d.render.outcome = .ok g) (hLayout : g.layout = some l)
    (hGroups : Item.brackets d.items = []) :
    (l.signals.map PlacedSignal.y).Pairwise (· < ·) ↔
      d.signals.length ≤ 1 ∨ 0 < d.options.waveHeight + d.options.lineSpacing := by
  obtain ⟨_, hItems, hComputed, hPlaced⟩ := Document.placed_of_render hRender hLayout
  obtain ⟨_, _, hSets⟩ := Layout.sets_of_compute hPeriods hItems hComputed
  rw [Layout.descends_iff_of_layout hPlaced hGroups, hSets.length_eq]

/-- All checks of a document that renders pass, but perhaps that of the lane order. It passes exactly
where the tops of the lanes increase. They do where a lane with its spacing takes some height and no
group moves the lanes after it up, and without groups two lanes do only where the first holds. Options
pass their own checks without either. -/
theorem run_of_render (hPromised : description.Promised)
    (hOptions : ∀ o ∈ options, o.check = .ok ())
    (h : (description.render options).outcome = .ok g) :
    ∃ d l ordered, (description.load options).outcome = .ok d ∧ g.layout = some l ∧
      (run description options).outcome = .ok ⟨[⟨"lexing_deterministic", true, ""⟩,
        ⟨"render_deterministic", true, ""⟩, ⟨"coalesce_idempotent", true, ""⟩,
        ⟨"cycle_coverage", true, ""⟩, ⟨"canvas_width", true, ""⟩, ⟨"lane_order", ordered, ""⟩,
        ⟨"edge_warnings", true, ""⟩]⟩ ∧
      (l.signals.map PlacedSignal.slot).Pairwise (· < ·) ∧
      (ordered = true ↔ (l.signals.map PlacedSignal.y).Pairwise (· < ·)) ∧
      (0 < d.options.waveHeight + d.options.lineSpacing → 0 ≤ d.options.groupMargin →
        ordered = true) ∧
      (Item.brackets d.items = [] → (ordered = true ↔
        d.signals.length ≤ 1 ∨ 0 < d.options.waveHeight + d.options.lineSpacing)) := by
  rw [Description.render, Logged.outcome_bind] at h
  obtain ⟨d, hLoad, hRender⟩ := bind_eq_ok_iff.mp h
  have hValid := Description.valid_of_load hPromised hOptions hLoad
  obtain ⟨_, l, _, _, _, _, _, hg⟩ := Document.of_render hRender
  have hLayout : g.layout = some l := by rw [hg]
  obtain ⟨_, _, _, hPlaced⟩ := Document.placed_of_render hRender hLayout
  refine ⟨d, l, _, hLoad, hLayout, outcome_run hValid hLoad hRender hLayout,
    Layout.slots_of_layout hPlaced, increasing_iff, fun hStep hMargin => ?_, fun hGroups => ?_⟩
  · exact increasing_iff.mpr (Layout.descends_of_layout hPlaced hStep hMargin)
  · rw [increasing_iff, descends_iff_of_render hValid.periods hRender hLayout hGroups]

end Exact

/-- The lanes of the groups go down, so that nothing is found. -/
theorem run_of_render_grouped :
    ∃ report, (run (.parsed Description.grouped) none).outcome = .ok report ∧
      report.passed = true := by
  obtain ⟨hValid, g, hg⟩ := Description.render_grouped
  have hRender : ((Description.parsed Description.grouped).render none).outcome = .ok g := hg
  obtain ⟨d, l, ordered, hLoad, _, hRun, _, _, hOrdered, _⟩ :=
    run_of_render hValid.promised (by simp) hRender
  obtain rfl : Description.grouped = d := Except.ok.inj hLoad
  obtain rfl : ordered = true := by
    apply hOrdered <;> simp only [Description.grouped, Options.default, ExactScalar.fraction_eq] <;>
      norm_num
  exact ⟨_, hRun, rfl⟩

/-- A spacing that takes back the height of a lane. -/
noncomputable def stacked : Options ℝ := { Options.default with lineSpacing := -24 }

/-- Options let the lanes share one place, and their order is not confirmed then. -/
theorem run_stacked :
    stacked.check = .ok () ∧
      Succeeds ((Description.parsed (Description.handshake "b")).render (some stacked)).outcome ∧
      ∃ report, (run (.parsed (Description.handshake "b")) (some stacked)).outcome = .ok report ∧
        report.failures = [⟨"lane_order", false, ""⟩] := by
  have hAccepted : stacked.Accepted :=
    have h := Options.accepted_default
    ⟨h.cycleWidth, h.hscale, h.gapShrink, h.waveHeight, h.transition, h.colours⟩
  let d := (Description.handshake "b").withOptions stacked
  have hLoad : ((Description.parsed (Description.handshake "b")).load (some stacked)).outcome =
      .ok d := rfl
  have hValid : d.Valid := ⟨(Description.handshake_promised "b" _ rfl).periods, hAccepted⟩
  have hSound : d.Sound := by
    obtain ⟨hSignals, hAnchors⟩ : (Description.handshake "b").Sound :=
      Description.handshake_sound (by decide) (by decide)
    exact ⟨hSignals, hAnchors⟩
  obtain ⟨g, hRender⟩ := Document.render_of_sound hValid hSound
  obtain ⟨_, l, _, _, _, _, _, hg⟩ := Document.of_render hRender
  have hLayout : g.layout = some l := by rw [hg]
  have hGroups : Item.brackets d.items = [] := by
    rw [Item.brackets_eq_bracketsAll]
    rfl
  have hOrder : increasing (l.signals.map PlacedSignal.y) = false := by
    rw [Bool.eq_false_iff, Ne, increasing_iff,
      descends_iff_of_render hValid.periods hRender hLayout hGroups, not_or]
    have hTwo : d.signals.length = 2 := by
      rw [show d.signals = (Description.handshake "b").signals from rfl,
        Description.signals_handshake]
      rfl
    refine ⟨by omega, ?_⟩
    norm_num [d, Document.withOptions, stacked, Options.default]
  refine ⟨Options.check_eq_ok_iff.mpr hAccepted, ⟨g, ?_⟩, _,
    outcome_run hValid hLoad hRender hLayout, ?_⟩
  · rw [Description.render, Logged.outcome_bind, hLoad, ok_bind, hRender]
  · rw [hOrder]
    rfl

end Verify
end TimingDiagram
