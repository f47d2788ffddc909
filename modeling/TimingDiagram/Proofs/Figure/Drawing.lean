import TimingDiagram.Figure.Diagram
import TimingDiagram.Proofs.Document.Soundness
import TimingDiagram.Proofs.Layout.Shown

/-! Drawing a document, in any arithmetic. A figure is the drawing of a layout of the compiled
items, whatever is told on the way. It fails only where something cannot be computed, or for a
signal with a fault, or for an anchor that is taken. -/
namespace TimingDiagram

namespace Document

variable {K : Type} {d : Document K} {e : Error}

theorem compile_eq_mapM (d : Document K) :
    d.compile.outcome.map Item.leavesAll = d.signals.mapM fun s => s.compile.outcome := by
  rw [signals, Item.signals_eq_leavesAll]
  exact Item.outcome_traverseAll Signal.compile d.items

/-- A document is refused for the fault of its first signal with one. -/
theorem compile_of_offence {before after : List (Signal K)} {s : Signal K}
    (hSplit : d.signals = before ++ s :: after) (hFirst : ∀ t ∈ before, t.Sound)
    (hFault : s.Offence e) : d.compile.outcome = .error e := by
  have hSignals : (d.signals.mapM fun s => s.compile.outcome) = .error e :=
    mapM_eq_error_iff.mpr ⟨before, s, after, hSplit,
      fun t ht => Signal.compile_of_sound (hFirst t ht), Signal.compile_of_offence hFault⟩
  rw [← compile_eq_mapM] at hSignals
  cases hCompile : d.compile.outcome with
  | error d => simpa [hCompile, Except.map] using hSignals
  | ok items => simp [hCompile, Except.map] at hSignals

theorem compile_of_sound (h : ∀ s ∈ d.signals, s.Sound) :
    ∃ items, d.compile.outcome = .ok items ∧
      List.Forall₂ (fun s c => s.compile.outcome = .ok c) d.signals (Item.leavesAll items) := by
  obtain ⟨compiled, hCompiled⟩ : Succeeds (d.signals.mapM fun s => s.compile.outcome) :=
    Succeeds.mapM fun s hs => Signal.compile_of_sound (h s hs)
  have hItems := (compile_eq_mapM d).trans hCompiled
  cases hCompile : d.compile.outcome with
  | error d => simp [hCompile, Except.map] at hItems
  | ok items =>
      refine ⟨items, rfl, ?_⟩
      have hLeaves : Item.leavesAll items = compiled := by
        simpa [hCompile, Except.map] using hItems
      exact hLeaves ▸ forall₂_of_mapM hCompiled

theorem sound_or_offence (d : Document K) : d.Sound ∨ ∃ e, d.Offence e := by
  classical
  cases hFound : d.signals.find? fun s => decide (¬ s.Sound) with
  | some s =>
      obtain ⟨hUnsound, before, after, hSplit, hFirst⟩ := List.find?_eq_some_iff_append.mp hFound
      rcases s.sound_or_offence with hSound | ⟨e, hFault⟩
      · exact absurd hSound (of_decide_eq_true hUnsound)
      · exact .inr ⟨e, .signal hSplit (fun t ht => by simpa using hFirst t ht) hFault⟩
  | none =>
      have hSound : ∀ s ∈ d.signals, s.Sound := by
        simpa using List.find?_eq_none.mp hFound
      rcases nodup_or_nameClash d.declaredAnchors with hNames | ⟨e, hClash⟩
      · exact .inl ⟨hSound, hNames⟩
      · exact .inr ⟨e, .anchor hSound hClash⟩

/-- A compiled signal carries the anchors that it declares. -/
theorem declared_of_compile {s : Signal K} {c : Compiled K} (hPeriod : 1 ≤ s.period)
    (h : s.compile.outcome = .ok c) :
    c.declared = s.anchors.map fun a => (a.1, ⟨s.name, some a.2⟩) := by
  have hAnchors := congrArg (List.map fun a => (a.1, (⟨s.name, some a.2⟩ : Place)))
    (Signal.anchors_of_compile hPeriod h)
  rw [List.map_filterMap, List.map_map] at hAnchors
  rw [Compiled.declared, (Signal.of_compile h).1]
  simpa [Function.comp_def] using hAnchors

theorem flatMap_declared {signals : List (Signal K)} {compiled : List (Compiled K)}
    (hPeriods : ∀ s ∈ signals, 1 ≤ s.period)
    (h : List.Forall₂ (fun s c => s.compile.outcome = .ok c) signals compiled) :
    compiled.flatMap Compiled.declared = signals.flatMap fun s =>
      s.anchors.map fun a => (a.1, ⟨s.name, some a.2⟩) := by
  induction h with
  | nil => rfl
  | cons hFirst _ ih =>
      obtain ⟨hPeriod, hPeriods⟩ := List.forall_mem_cons.mp hPeriods
      rw [List.flatMap_cons, List.flatMap_cons, declared_of_compile hPeriod hFirst, ih hPeriods]

end Document

variable {K : Type} [Add K] [Sub K] [Mul K] [Div K] [LT K] [LE K] [DecidableLT K] [DecidableLE K]
  [Max K] [Min K] [BEq K] [Scalar K]

omit [BEq K] in
theorem Layout.of_compute {o : Options K} {items : List (Item (Compiled K))}
    {head foot : Option Caption} {l : Layout K}
    (h : (compute o items head foot).outcome = .ok l) : ofItems o items head foot = .ok l := by
  rw [compute] at h
  simp only [Logged.outcome_bind] at h
  obtain ⟨_, hLayout, h⟩ := bind_eq_ok_iff.mp h
  obtain ⟨_, _, h⟩ := bind_eq_ok_iff.mp h
  cases h
  exact hLayout

omit [BEq K] in
theorem Layout.failsOnlyBy_compute (o : Options K) (items : List (Item (Compiled K)))
    (head foot : Option Caption) :
    FailsOnlyBy (NameClash ((Item.leavesAll items).flatMap Compiled.declared))
      (compute o items head foot).outcome := by
  rw [compute]
  simp only [Logged.outcome_bind]
  exact (failsOnlyBy_ofItems o items head foot).bind fun _ _ =>
    (failsOnlyBy_liftM _).bind fun _ _ => failsOnlyBy_ok _

namespace Document

variable {d : Document K} {items : List (Item (Compiled K))} {g : Diagram K}

omit [LT K] [LE K] [DecidableLT K] [DecidableLE K] [Max K] [Min K] [BEq K] in
/-- The outcome of an edge does not depend on what is told of the others. -/
theorem outcome_resolveEdges (registry : Registry K) (edges : List EdgeSpec) :
    (resolveEdges registry edges).outcome = liftM (edges.mapM (EdgeResult.ofSpec registry)) := by
  rw [resolveEdges, Logged.outcome_mapM, ← mapM_liftM]
  congr 1
  funext spec
  simp only [Logged.outcome_bind, Logged.outcome_liftM_fault, Logged.outcome_forM_tell,
    Logged.outcome_pure, ok_bind]
  exact bind_pure _

omit [BEq K] in
theorem layout_eq_ok_iff {o : Options K} {l : Layout K} :
    (d.layout o).outcome = .ok l ↔ ∃ items, d.compile.outcome = .ok items ∧
      (Layout.compute o items d.head d.foot).outcome = .ok l := by
  rw [layout, Logged.outcome_bind, bind_eq_ok_iff]

/-- A figure is the drawing of a layout of the compiled items. -/
theorem outcome_render (d : Document K) :
    d.render.outcome = do
      let items ← d.compile.outcome
      let l ← (Layout.compute d.options items d.head d.foot).outcome
      let edges ← (resolveEdges l.anchors d.edges).outcome
      let primitives ← liftM (Figure.emit l edges d.options)
      return ⟨primitives, l.width, l.height, edges.filterMap EdgeResult.warning?, some l⟩ := by
  rw [render, layout]
  simp only [Logged.outcome_bind, Logged.outcome_liftM_fault, Logged.outcome_tell,
    Logged.outcome_pure, ok_bind, bind_assoc]
  rfl

/-- A document that compiles fails for an anchor that is taken, or where something cannot be
computed. -/
theorem failsOnlyBy_render (h : d.compile.outcome = .ok items) :
    FailsOnlyBy (NameClash ((Item.leavesAll items).flatMap Compiled.declared))
      d.render.outcome := by
  rw [outcome_render, h, ok_bind]
  refine (Layout.failsOnlyBy_compute _ _ _ _).bind fun l _ => ?_
  rw [outcome_resolveEdges]
  exact (failsOnlyBy_liftM _).bind fun _ _ => (failsOnlyBy_liftM _).bind fun _ _ =>
    failsOnlyBy_ok _

theorem of_render (h : d.render.outcome = .ok g) :
    ∃ items l edges, d.compile.outcome = .ok items ∧
      (Layout.compute d.options items d.head d.foot).outcome = .ok l ∧
      d.edges.mapM (EdgeResult.ofSpec l.anchors) = .ok edges ∧
      Figure.emit l edges d.options = .ok g.primitives ∧
      g = ⟨g.primitives, l.width, l.height, edges.filterMap EdgeResult.warning?, some l⟩ := by
  rw [outcome_render] at h
  obtain ⟨items, hItems, h⟩ := bind_eq_ok_iff.mp h
  obtain ⟨l, hLayout, h⟩ := bind_eq_ok_iff.mp h
  obtain ⟨edges, hEdges, h⟩ := bind_eq_ok_iff.mp h
  obtain ⟨primitives, hPrimitives, h⟩ := bind_eq_ok_iff.mp h
  cases h
  rw [outcome_resolveEdges] at hEdges
  exact ⟨items, l, edges, hItems, hLayout, liftM_eq_ok_iff.mp hEdges,
    liftM_eq_ok_iff.mp hPrimitives, rfl⟩

/-- The layout of a figure is that of its document. -/
theorem placed_of_render {l : Layout K} (h : d.render.outcome = .ok g) (hLayout : g.layout = some l) :
    ∃ items, d.compile.outcome = .ok items ∧
      (Layout.compute d.options items d.head d.foot).outcome = .ok l ∧
      (d.layout d.options).outcome = .ok l := by
  obtain ⟨items, shown, _, hItems, hComputed, _, _, hg⟩ := of_render h
  rw [hg, Option.some_inj] at hLayout
  subst hLayout
  exact ⟨items, hItems, hComputed, layout_eq_ok_iff.mpr ⟨items, hItems, hComputed⟩⟩

theorem succeeds_layout (h : Succeeds d.render.outcome) : Succeeds (d.layout d.options).outcome := by
  obtain ⟨_, hg⟩ := h
  obtain ⟨items, l, _, hItems, hLayout, _⟩ := of_render hg
  exact ⟨l, layout_eq_ok_iff.mpr ⟨items, hItems, hLayout⟩⟩

theorem compile_of_render (h : d.render.outcome = .ok g) {s : Signal K} (hs : s ∈ d.signals) :
    Succeeds s.compile.outcome := by
  obtain ⟨items, _, _, hItems, _⟩ := of_render h
  have hCompiled := compile_eq_mapM d
  rw [hItems] at hCompiled
  obtain ⟨c, _, hc⟩ := exists_of_mem_forall₂ (forall₂_of_mapM hCompiled.symm).flip hs
  exact ⟨c, hc⟩

end Document

namespace Layout

variable {o : Options K} {items : List (Item (Compiled K))} {head foot : Option Caption}
  {l : Layout K}

omit [BEq K] in
/-- A layout registers the anchors that its signals declare. -/
theorem names_of_compute (h : (compute o items head foot).outcome = .ok l) :
    l.anchors.names = ((Item.leavesAll items).flatMap Compiled.declared).map Prod.fst := by
  obtain ⟨_, _, block, _, _, _, hBlock, hAnchors, _⟩ := of_ofItems (of_compute h)
  rw [Registry.names, Registry.anchors_of_ofList hAnchors,
    ← (Frame.places_of_placeItems hBlock).anchors, Registry.map_fst_declared]

end Layout
end TimingDiagram
