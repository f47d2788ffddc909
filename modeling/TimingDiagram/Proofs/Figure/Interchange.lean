import TimingDiagram.Proofs.Figure.Rendering
import TimingDiagram.Proofs.Wave.Repeats

/-! Declared cycles and written repeats. A signal whose cycles go past its wave is drawn as one
whose wave is filled up with repeats, in every figure and with every time axis. -/
namespace TimingDiagram

namespace Signal

variable {K : Type} {s : Signal K} {tokens : List Token} {length : Nat}

/-- A signal with a length past its wave shows the same, be that length declared or written, and
be the repeats after its wave too few, too many or none. -/
theorem shown_repeated (hTokens : lex s.wave s.node s.name none = .ok tokens)
    (hWave : s.wave ≠ "") (hPeriod : 1 ≤ s.period) (hLength : tokens.length * s.period ≤ length) :
    ∃ shown : Shown K, ∀ count cycles, cycles.getD ((tokens.length + count) * s.period) = length →
      ({ s with wave := repeated s.wave count, cycles } : Signal K).compile.outcome.map
        Compiled.shown = .ok shown := by
  obtain ⟨last, hLast⟩ := Option.ne_none_iff_exists'.mp fun hNone =>
    tokens_ne_nil hTokens hWave (List.getLast?_eq_none_iff.mp hNone)
  have hPast : (tokens.length * s.period : Int) ≤ length := by exact_mod_cast hLength
  obtain ⟨segments, hSegments⟩ := Segment.resolve_agains s.data s.name (lex_numbered hTokens) hLast
    (by exact_mod_cast hPeriod) hPast
  refine ⟨⟨s.name, s.period, s.phase, segments, length, cycleMarks s.period tokens length⟩, ?_⟩
  intro count cycles hCycles
  have hMore : ∀ t ∈ last.agains tokens.length count, t.tag.isContinuation = true := by
    intro t ht
    obtain ⟨i, rfl⟩ := Token.eq_again_of_mem_agains ht
    rfl
  rw [outcome_compile]
  simp only [lex_repeated hTokens hLast, ok_bind, Signal.length, List.length_append,
    Token.length_agains, hCycles, hSegments]
  rw [← cycleMarks_append hMore length]
  rfl

end Signal

namespace Document

variable {K : Type} {d : Document K} {i : Nat} {s t : Signal K}

theorem compile_setSignal_congr {α : Type} {f : Compiled K → α}
    (h : s.compile.outcome.map f = t.compile.outcome.map f) :
    (d.setSignal i s).compile.outcome.map (Item.mapAll f) =
      (d.setSignal i t).compile.outcome.map (Item.mapAll f) := by
  rw [compile, compile, Item.outcome_traverseAll_map, Item.outcome_traverseAll_map]
  exact Item.traverseAll_replaceAll (f := fun s : Signal K => s.compile.outcome.map f) h i d.items

theorem Valid.setSignal [Field K] [LinearOrder K] (hValid : d.Valid) (hPeriod : 1 ≤ t.period) :
    (d.setSignal i t).Valid := by
  refine ⟨?_, hValid.options⟩
  rw [signals_setSignal]
  intro u hu
  rcases List.mem_or_eq_of_mem_set hu with hOld | rfl
  · exact hValid.periods u hOld
  · exact hPeriod

variable [Add K] [Sub K] [Mul K] [Div K] [LT K] [LE K] [DecidableLT K] [DecidableLE K] [Max K]
  [Min K] [BEq K] [Scalar K]

/-- A figure depends on a signal through what its lane shows. -/
theorem render_setSignal_congr
    (h : s.compile.outcome.map Compiled.shown = t.compile.outcome.map Compiled.shown) :
    (d.setSignal i s).render.outcome = (d.setSignal i t).render.outcome := by
  rw [outcome_render, outcome_render]
  refine bind_congr_of_map (compile_setSignal_congr h) fun items others hShown => ?_
  rw [Layout.compute_congr _ hShown]

/-- A document that is drawn is still drawn with another signal that declares the same anchors,
as far as the figure can be computed. -/
theorem fault_of_render_setSignal (hRender : Succeeds d.render.outcome)
    (hSignal : d.signals[i]? = some s)
    (h : s.compile.outcome.map Compiled.declared = t.compile.outcome.map Compiled.declared)
    {e : Error} (he : (d.setSignal i t).render.outcome = .error e) : ∃ cause, e = .fault cause := by
  obtain ⟨g, hg⟩ := hRender
  obtain ⟨items, l, _, hItems, hLayout, _⟩ := of_render hg
  have hCompiled := compile_setSignal_congr (d := d) (i := i) h
  rw [setSignal_self hSignal, hItems] at hCompiled
  cases hOthers : (d.setSignal i t).compile.outcome with
  | error e =>
      rw [hOthers] at hCompiled
      cases hCompiled
  | ok others =>
      rw [hOthers] at hCompiled
      have hLeaves := congrArg Item.leavesAll (Except.ok.inj hCompiled)
      rw [Item.leavesAll_mapAll, Item.leavesAll_mapAll] at hLeaves
      rcases failsOnlyBy_render hOthers e he with hFault | hClash
      · exact hFault
      · have hNodup := l.anchors.nodup
        rw [← Registry.names, Layout.names_of_compute hLayout, List.flatMap_def, hLeaves,
          ← List.flatMap_def] at hNodup
        exact absurd hNodup hClash.not_nodup

/-- In a document that is drawn, a signal with a wave may have more cycles than its wave. Declaring
them gives the same figure as declaring them beside a wave with repeats after it, and as writing
all of them; and nothing stands against that figure but what cannot be computed. -/
theorem render_declared_eq_repeated (hRender : Succeeds d.render.outcome)
    (hSignal : d.signals[i]? = some s) (hPeriod : 1 ≤ s.period) (hWave : s.wave ≠ "") :
    let drawn wave cycles := (d.setSignal i { s with wave, cycles }).render.outcome
    ∃ tokens, lex s.wave s.node s.name none = .ok tokens ∧
      ∀ length, tokens.length * s.period ≤ length → ∀ count,
        drawn (repeated s.wave count) (some length) = drawn s.wave (some length) ∧
          (length = (tokens.length + count) * s.period →
            drawn (repeated s.wave count) none = drawn s.wave (some length)) ∧
          ∀ e, drawn s.wave (some length) = .error e → ∃ cause, e = .fault cause := by
  obtain ⟨g, hg⟩ := hRender
  obtain ⟨c, hc⟩ := compile_of_render hg (List.mem_of_getElem? hSignal)
  obtain ⟨_, hTokens, _⟩ := Signal.of_compile hc
  refine ⟨c.tokens, hTokens, fun length hLength count => ?_⟩
  obtain ⟨shown, hShown⟩ := Signal.shown_repeated hTokens hWave hPeriod hLength
  have hDeclared : ({ s with cycles := some length } : Signal K).compile.outcome.map
      Compiled.shown = .ok shown := by
    simpa only [repeated_zero] using hShown 0 (some length) rfl
  refine ⟨render_setSignal_congr ((hShown count (some length) rfl).trans hDeclared.symm),
    fun hWritten => render_setSignal_congr ((hShown count none hWritten.symm).trans hDeclared.symm),
    fun e he => fault_of_render_setSignal ⟨g, hg⟩ hSignal ?_ he⟩
  cases hOther : ({ s with cycles := some length } : Signal K).compile.outcome with
  | error e =>
      rw [hOther] at hDeclared
      cases hDeclared
  | ok other =>
      have hOwn := declared_of_compile (s := { s with cycles := some length }) hPeriod hOther
      rw [hc]
      exact congrArg Except.ok ((declared_of_compile hPeriod hc).trans hOwn.symm)

end Document

namespace Description

/-- The first lane of the two, with two cycles after its wave, be they declared or written. -/
theorem render_declared_eq_repeated_handshake :
    let d := handshake "b"
    let req : Signal ℝ :=
      { name := "req", wave := "01", node := .names [none, some "a"], phase := 0 }
    Succeeds (d.setSignal 0 { req with cycles := some 4 }).render.outcome ∧
      (d.setSignal 0 { req with wave := "01.." }).render.outcome =
        (d.setSignal 0 { req with cycles := some 4 }).render.outcome := by
  intro d req
  have hValid : d.Valid := handshake_promised "b" d rfl
  have hSound : d.Sound := handshake_sound (by decide) (by decide)
  have hSignal : d.signals[0]? = some req := by
    rw [signals_handshake]
    rfl
  obtain ⟨tokens, hTokens, h⟩ := Document.render_declared_eq_repeated
    (Document.render_of_sound hValid hSound) hSignal le_rfl (by decide)
  have hLength : tokens.length = 2 := by
    have hLow : Glyph.Valid ⟨'0', .low, none⟩ := ⟨rfl, by simp⟩
    have hHigh : Glyph.Valid ⟨'1', .high, none⟩ := ⟨rfl, by simp⟩
    exact lex_length hTokens (List.forall_mem_cons.mpr ⟨hLow, List.forall_mem_singleton.mpr hHigh⟩)
      (by decide)
  obtain ⟨_, hWritten, hFaults⟩ := h 4 (by simp [hLength, req]) 2
  refine ⟨succeeds_iff.mpr fun e he => ?_, hWritten (by simp [hLength, req])⟩
  obtain ⟨cause, rfl⟩ := hFaults e he
  exact (hValid.setSignal le_rfl).ne_fault cause he

end Description
end TimingDiagram
