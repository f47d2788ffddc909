import TimingDiagram.Proofs.Edge.Broken
import TimingDiagram.Proofs.Figure.Rendering

/-! A broken edge is local. A figure with broken edges is the figure without them, with a mark at
each of their ends that exists and a warning for each of them. -/
namespace TimingDiagram

namespace Figure

variable {K : Type} [Add K] [Sub K] [Mul K] [Div K] [LT K] [LE K] [DecidableLT K] [DecidableLE K]
  [BEq K] [Scalar K]

/-- The mark that a broken edge leaves at an anchor. -/
structure Marks (a : Anchor K) (p : Primitive K) : Prop where
  kind : p.kind = .rect
  role : p.role = .unresolved
  points : p.points = [⟨a.x - Lane.markerSize, a.y - Lane.markerSize⟩,
    ⟨a.x + Lane.markerSize, a.y + Lane.markerSize⟩]

variable {r : Registry K} {edges : List EdgeSpec} {results : List (EdgeResult K)}
  {styles : Styles K}

omit [Mul K] [Div K] [LT K] [LE K] [DecidableLT K] [DecidableLE K] [BEq K] in
theorem marks_brokenEdge (styles : Styles K) (broken : BrokenEdge K)
    (h : ∀ a ∈ broken.known, a ∈ r.anchors) :
    List.Forall₂ (fun name mark => ∃ a ∈ r.anchors, a.name = name ∧ Marks a mark)
      (broken.known.map Anchor.name) (brokenEdge styles broken) := by
  rw [brokenEdge, List.forall₂_map_left_iff, List.forall₂_map_right_iff, List.forall₂_same]
  exact fun a ha => ⟨a, h a ha, rfl, rfl, rfl, rfl⟩

omit [Mul K] [Div K] [LT K] [LE K] [DecidableLT K] [DecidableLE K] [BEq K] in
/-- Every end of a broken edge that exists has a mark. -/
theorem marks_unresolvedEdge (styles : Styles K)
    (h : List.Forall₂ (EdgeResult.Of r) edges results) :
    List.Forall₂ (fun name mark => ∃ a ∈ r.anchors, a.name = name ∧ Marks a mark)
      ((edges.filter fun e => !e.isWhole r.names).flatMap (EdgeSpec.knownEnds r.names))
      (results.flatMap (unresolvedEdge styles)) := by
  induction h with
  | nil => exact .nil
  | cons hFirst _ ih =>
      rw [List.flatMap_cons]
      cases hFirst with
      | resolved hWhole => rwa [List.filter_cons_of_neg (by simp [hWhole])]
      | @broken known hOpen hMem hNames =>
          rw [List.filter_cons_of_pos (by simp [hOpen]), List.flatMap_cons, ← hNames]
          exact List.rel_append (marks_brokenEdge styles ⟨_, _, known⟩ hMem) ih

omit [LT K] [LE K] [DecidableLT K] [DecidableLE K] in
theorem mapM_resolvedEdge_filter {lines : List (List (Primitive K))}
    (h : results.mapM (resolvedEdge styles) = .ok lines) :
    ∃ kept, (results.filter EdgeResult.isResolved).mapM (resolvedEdge styles) = .ok kept ∧
      kept.flatten = lines.flatten := by
  induction results generalizing lines with
  | nil => exact ⟨lines, h, rfl⟩
  | cons result results ih =>
      rw [List.mapM_cons] at h
      obtain ⟨first, hFirst, h⟩ := bind_eq_ok_iff.mp h
      obtain ⟨others, hOthers, h⟩ := bind_eq_ok_iff.mp h
      cases h
      obtain ⟨kept, hKept, hFlatten⟩ := ih hOthers
      cases result with
      | resolved path =>
          refine ⟨first :: kept, ?_, by rw [List.flatten_cons, hFlatten, List.flatten_cons]⟩
          rw [List.filter_cons_of_pos rfl, List.mapM_cons, hFirst, ok_bind, hKept]
          rfl
      | broken broken =>
          cases hFirst
          rw [List.filter_cons_of_neg Bool.false_ne_true, List.flatten_cons, List.nil_append]
          exact ⟨kept, hKept, hFlatten⟩

omit [Mul K] [Div K] [LT K] [LE K] [DecidableLT K] [DecidableLE K] [BEq K] in
theorem flatMap_unresolvedEdge_filter (styles : Styles K) (results : List (EdgeResult K)) :
    (results.filter EdgeResult.isResolved).flatMap (unresolvedEdge styles) = [] := by
  apply List.flatMap_eq_nil_iff.mpr
  intro result hMem
  cases result with
  | resolved path => rfl
  | broken broken => exact absurd (List.mem_filter.mp hMem).2 Bool.false_ne_true

omit [LT K] [LE K] [DecidableLT K] [DecidableLE K] in
/-- The marks of broken edges come after everything else, which is drawn as without them. -/
theorem emit_mended {l : Layout K} {o : Options K} {primitives : List (Primitive K)}
    (h : emit l results o = .ok primitives) :
    ∃ styles kept, emit l (results.filter EdgeResult.isResolved) o = .ok kept ∧
      primitives = kept ++ results.flatMap (unresolvedEdge styles) := by
  rw [emit] at h
  obtain ⟨styles, hStyles, h⟩ := bind_eq_ok_iff.mp h
  obtain ⟨head, hHead, h⟩ := bind_eq_ok_iff.mp h
  obtain ⟨lanes, hLanes, h⟩ := bind_eq_ok_iff.mp h
  obtain ⟨foot, hFoot, h⟩ := bind_eq_ok_iff.mp h
  obtain ⟨lines, hLines, h⟩ := bind_eq_ok_iff.mp h
  cases h
  obtain ⟨kept, hKept, hFlatten⟩ := mapM_resolvedEdge_filter hLines
  refine ⟨styles, head ++ lanes.flatten ++ foot ++ lines.flatten, ?_, rfl⟩
  simp only [emit, hStyles, hHead, hLanes, hFoot, hKept, ok_bind, flatMap_unresolvedEdge_filter,
    hFlatten, List.append_nil]
  rfl

end Figure

namespace Document

variable {K : Type} {d : Document K}

/-- The names of the anchors that the signals declare. -/
def anchorNames (d : Document K) : List String := d.declaredAnchors.map Prod.fst

/-- The edges with an end that is no anchor. -/
def brokenEdges (d : Document K) : List EdgeSpec :=
  d.edges.filter fun e => !e.isWhole d.anchorNames

/-- The document without its broken edges. -/
def mended (d : Document K) : Document K :=
  { d with edges := d.edges.filter (EdgeSpec.isWhole d.anchorNames) }

theorem brokenEdges_mended (d : Document K) : d.mended.brokenEdges = [] := by
  apply List.filter_eq_nil_iff.mpr
  intro e he
  have hWhole : e.isWhole d.anchorNames = true := (List.mem_filter.mp he).2
  have hNames : d.mended.anchorNames = d.anchorNames := rfl
  simp [hNames, hWhole]

variable [Add K] [Sub K] [Mul K] [Div K] [LT K] [LE K] [DecidableLT K] [DecidableLE K] [Max K]
  [Min K] [BEq K] [Scalar K] {items : List (Item (Compiled K))} {l : Layout K} {g : Diagram K}

omit [BEq K] in
/-- The anchors of a layout are those that the signals declare. -/
theorem names_of_layout (hPeriods : ∀ s ∈ d.signals, 1 ≤ s.period)
    (hItems : d.compile.outcome = .ok items)
    (hLayout : (Layout.compute d.options items d.head d.foot).outcome = .ok l) :
    l.anchors.names = d.anchorNames := by
  have hCompiled := compile_eq_mapM d
  rw [hItems] at hCompiled
  rw [Layout.names_of_compute hLayout, flatMap_declared hPeriods (forall₂_of_mapM hCompiled.symm)]
  rfl

omit [LT K] [LE K] [DecidableLT K] [DecidableLE K] [Max K] [Min K] [BEq K] in
theorem alerts_resolveEdges {r : Registry K} {edges : List EdgeSpec}
    {results : List (EdgeResult K)} (h : edges.mapM (EdgeResult.ofSpec r) = .ok results) :
    (resolveEdges r edges).alerts = results.flatMap EdgeResult.records := by
  have hEach := forall₂_of_mapM h
  rw [resolveEdges, Logged.alerts_mapM]
  · clear h
    induction hEach with
    | nil => rfl
    | @cons e result edges results hFirst _ ih =>
        have hOwn : result.records.filter (fun r => r.level ≠ Severity.debug) = result.records := by
          cases result <;> rfl
        rw [List.flatMap_cons, List.flatMap_cons, ih,
          Logged.alerts_bind_of_ok (by rw [Logged.outcome_liftM_fault, hFirst, liftM_ok]),
          Logged.alerts_bind_of_ok (Logged.outcome_forM_tell _), Logged.alerts_forM_tell, hOwn,
          Logged.alerts_liftM_fault, Logged.alerts_pure, List.nil_append, List.append_nil]
  · intro e he
    obtain ⟨result, _, hResult⟩ := exists_of_mem_forall₂ hEach.flip he
    refine ⟨result, ?_⟩
    simp only [Logged.outcome_bind, Logged.outcome_liftM_fault, hResult, liftM_ok, ok_bind,
      Logged.outcome_forM_tell, Logged.outcome_pure]

omit [BEq K] in
theorem alerts_layout (d : Document K) (o : Options K) : (d.layout o).alerts = [] :=
  Logged.alerts_bind_eq_nil (Item.alerts_traverseAll Signal.alerts_compile _) fun _ _ =>
    Layout.alerts_compute _ _ _ _

/-- What is told of a figure besides records for debugging are its broken edges. -/
theorem alerts_render (hPeriods : ∀ s ∈ d.signals, 1 ≤ s.period) (h : d.render.outcome = .ok g) :
    g.warnings = d.brokenEdges.map (EdgeSpec.missing d.anchorNames) ∧
      d.render.alerts = d.brokenEdges.map (EdgeSpec.alert d.anchorNames) := by
  obtain ⟨items, l, results, hItems, hLayout, hResults, hPrimitives, hg⟩ := of_render h
  have hOf := EdgeResult.forall₂_of hResults
  rw [brokenEdges, ← names_of_layout hPeriods hItems hLayout, ← EdgeResult.filterMap_warning? hOf,
    ← EdgeResult.flatMap_records hOf]
  refine ⟨by rw [hg], ?_⟩
  have hPlaced : (d.layout d.options).outcome = .ok l :=
    layout_eq_ok_iff.mpr ⟨items, hItems, hLayout⟩
  have hEdges : (resolveEdges l.anchors d.edges).outcome = .ok results := by
    rw [outcome_resolveEdges, hResults, liftM_ok]
  have hDrawn : (liftM (Figure.emit l results d.options) : Logged _).outcome =
      .ok g.primitives := by
    rw [Logged.outcome_liftM_fault, hPrimitives, liftM_ok]
  rw [render, Logged.alerts_bind_of_ok hPlaced, Logged.alerts_bind_of_ok hEdges,
    Logged.alerts_bind_of_ok hDrawn, Logged.alerts_bind_of_ok (Logged.outcome_tell _),
    alerts_layout, alerts_resolveEdges hResults]
  exact List.append_nil _

/-- Without its broken edges a document is drawn as with them, but for their marks. -/
theorem render_mended (hPeriods : ∀ s ∈ d.signals, 1 ≤ s.period) (h : d.render.outcome = .ok g) :
    ∃ whole l marks, d.mended.render.outcome = .ok whole ∧ g.layout = some l ∧
      whole.layout = some l ∧ g.width = whole.width ∧ g.height = whole.height ∧
      g.primitives = whole.primitives ++ marks ∧
      List.Forall₂ (fun name mark => ∃ a ∈ l.anchors.anchors, a.name = name ∧ Figure.Marks a mark)
        (d.brokenEdges.flatMap (EdgeSpec.knownEnds d.anchorNames)) marks ∧
      whole.warnings = [] ∧ d.mended.render.alerts = [] := by
  obtain ⟨items, l, results, hItems, hLayout, hResults, hPrimitives, hg⟩ := of_render h
  have hNames := names_of_layout hPeriods hItems hLayout
  obtain ⟨styles, kept, hKept, hMarks⟩ := Figure.emit_mended hPrimitives
  have hEdges : d.mended.edges.mapM (EdgeResult.ofSpec l.anchors) =
      .ok (results.filter EdgeResult.isResolved) := by
    rw [mended, ← hNames]
    exact EdgeResult.mapM_ofSpec_filter hResults
  have hMended : d.mended.render.outcome = .ok ⟨kept, l.width, l.height,
      (results.filter EdgeResult.isResolved).filterMap EdgeResult.warning?, some l⟩ := by
    have hItems : d.mended.compile.outcome = .ok items := hItems
    have hLayout : (Layout.compute d.mended.options items d.mended.head d.mended.foot).outcome =
        .ok l := hLayout
    have hKept : Figure.emit l (results.filter EdgeResult.isResolved) d.mended.options =
        .ok kept := hKept
    rw [outcome_render, hItems, ok_bind, hLayout, ok_bind, outcome_resolveEdges, hEdges, liftM_ok,
      ok_bind, hKept, liftM_ok, ok_bind]
    rfl
  obtain ⟨hNone, hQuiet⟩ := alerts_render (d := d.mended) hPeriods hMended
  rw [brokenEdges_mended] at hNone hQuiet
  refine ⟨_, l, _, hMended, by rw [hg], rfl, by rw [hg], by rw [hg], hMarks, ?_, hNone, hQuiet⟩
  rw [brokenEdges, ← hNames]
  exact Figure.marks_unresolvedEdge styles (EdgeResult.forall₂_of hResults)

end Document

namespace Description

variable {K : Type} [Add K] [Sub K] [Mul K] [Div K] [LT K] [LE K] [DecidableLT K] [DecidableLE K]
  [Max K] [Min K] [BEq K] [Scalar K]

omit [Add K] [Sub K] [Div K] [Max K] [Min K] [BEq K] in
theorem periods_of_load {description : Description K} {options : Option (Options K)}
    {d : Document K} (hParsed : ∀ document, description = .parsed document →
      ∀ s ∈ document.signals, 1 ≤ s.period)
    (h : (description.load options).outcome = .ok d) : ∀ s ∈ d.signals, 1 ≤ s.period := by
  cases description with
  | raw value => exact Document.periods_of_parse h
  | parsed document => cases options <;> cases h <;> exact hParsed document rfl

/-- A figure with broken edges is the figure without them, of the same size, with a mark at each
end of a broken edge that exists, drawn last and the source before the target. It has one warning
for each broken edge, which names the source if that is no anchor and otherwise the target; each
of them is told, and beyond that nothing is told but for debugging. -/
theorem render_marks_broken_edges {description : Description K} {options : Option (Options K)}
    {g : Diagram K} (hParsed : ∀ document, description = .parsed document →
      ∀ s ∈ document.signals, 1 ≤ s.period)
    (h : (description.render options).outcome = .ok g) :
    ∃ d whole l marks, (description.load options).outcome = .ok d ∧
      d.mended.render.outcome = .ok whole ∧ g.layout = some l ∧ whole.layout = some l ∧
      g.width = whole.width ∧ g.height = whole.height ∧
      g.primitives = whole.primitives ++ marks ∧
      List.Forall₂ (fun name mark => ∃ a ∈ l.anchors.anchors, a.name = name ∧ Figure.Marks a mark)
        (d.brokenEdges.flatMap (EdgeSpec.knownEnds d.anchorNames)) marks ∧
      whole.warnings = [] ∧ d.mended.render.alerts = [] ∧
      g.warnings = d.brokenEdges.map (EdgeSpec.missing d.anchorNames) ∧
      (description.render options).alerts = d.brokenEdges.map (EdgeSpec.alert d.anchorNames) := by
  rw [render, Logged.outcome_bind] at h
  obtain ⟨d, hLoad, h⟩ := bind_eq_ok_iff.mp h
  have hPeriods := periods_of_load hParsed hLoad
  obtain ⟨hWarnings, hAlerts⟩ := Document.alerts_render hPeriods h
  obtain ⟨whole, l, marks, hWhole, hLayout, hKept, hWidth, hHeight, hDrawn, hMarks, hNone,
    hQuiet⟩ := Document.render_mended hPeriods h
  refine ⟨d, whole, l, marks, hLoad, hWhole, hLayout, hKept, hWidth, hHeight, hDrawn, hMarks, hNone,
    hQuiet, hWarnings, ?_⟩
  rw [render, Logged.alerts_bind_of_ok hLoad, alerts_load, hAlerts, List.nil_append]

/-- With another name for its second anchor, the edge of the two lanes has no target. -/
theorem render_marks_broken_edges_handshake :
    ∃ g, ((parsed (handshake "c")).render none).outcome = .ok g ∧ g.warnings = [⟨"b", "a->b"⟩] := by
  have hValid : (handshake "c").Valid := handshake_promised "c" _ rfl
  have hAnchors : (handshake "c").declaredAnchors =
      [("a", ⟨"req", some 1⟩), ("c", ⟨"ack", some 2⟩)] := declaredAnchors_handshake (by decide)
  obtain ⟨g, hg⟩ : Succeeds ((parsed (handshake "c")).render none).outcome :=
    Document.render_of_sound hValid (handshake_sound (by decide) (by decide))
  have hParsed : ∀ document, parsed (handshake "c") = .parsed document →
      ∀ s ∈ document.signals, 1 ≤ s.period := by
    rintro _ ⟨⟩
    exact hValid.periods
  obtain ⟨d, _, _, _, hLoad, _, _, _, _, _, _, _, _, _, hWarnings, _⟩ :=
    render_marks_broken_edges hParsed hg
  obtain rfl : handshake "c" = d := Except.ok.inj hLoad
  refine ⟨g, hg, hWarnings.trans ?_⟩
  rw [Document.brokenEdges, Document.anchorNames, hAnchors]
  decide

end Description
end TimingDiagram
