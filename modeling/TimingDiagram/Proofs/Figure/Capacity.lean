import TimingDiagram.Proofs.Figure.Rendering
import TimingDiagram.Proofs.Layout.Axis
import TimingDiagram.Proofs.Value.Trains

/-! Documents that there is room for. Under the default options a document is computed in doubles
without a fault when the cycles of its signals fit in an array and in the memory, and their periods and
phases are the usual ones. A document with more cycles than fit in an array has no figure. -/
namespace TimingDiagram

open Binary FirmScalar Quantity

variable [Memory]

theorem Options.steady_default : (Options.default : Options Quantity).Steady where
  number key := by cases key <;> exact ⟨_, rfl⟩
  divisor := ⟨.real _, _, known_mul rfl, rfl, by decide⟩
  measure := by simp [Options.default]

/-- What can be counted can be computed with. -/
theorem small_of_countable {n : Nat} (h : (n : Int) < Room.countRange) :
    Small (K := Quantity) n := by
  have hRange : Room.countRange ≤ 2 ^ 64 := by decide
  exact ⟨Int.natCast_nonneg n, h.trans_le hRange⟩

/-- A signal with a period of one cycle and hardly any phase, and a name whose characters can be
counted. -/
structure Signal.Plain (s : Signal Quantity) : Prop where
  period : s.period = 1
  phase : ∃ x, Within 20 x ∧ s.phase = known (.real x)
  name : (s.name.length : Int) < Room.countRange

theorem Compiled.steady_of_compile {s : Signal Quantity} {c : Compiled Quantity} (hPlain : s.Plain)
    (h : s.compile.outcome = .ok c) (hLength : c.length < lengthLimit)
    (hRoom : c.length ≤ Memory.capacity) : c.Steady := by
  obtain ⟨hSignal, hTokens, hSegments, _⟩ := Signal.of_compile h
  have hPeriod : 1 ≤ s.period := hPlain.period.ge
  have hCount : (c.length : Int) < 2 ^ 60 := by exact_mod_cast hLength
  have hBounds := (tiles_of_compile hPeriod h).bounds
  have hSpan : ∀ seg ∈ c.segments, 0 ≤ seg.start ∧ 1 ≤ seg.cycles ∧ seg.start + seg.cycles ≤ c.length :=
    hBounds
  refine ⟨?_, ⟨by omega, by omega⟩, ⟨hLength, hRoom⟩, ?_, ?_, ?_⟩
  · rw [hSignal]
    exact small_of_countable hPlain.name
  · intro seg hSeg
    obtain ⟨hStart, hCycles, hStop⟩ := hSpan seg hSeg
    refine ⟨⟨hStart, by omega⟩, ?_⟩
    rw [Segment.stop]
    exact ⟨by omega, by omega⟩
  · intro seg hSeg gap hGap
    obtain ⟨hStart, hCycles, hStop⟩ := hSpan seg hSeg
    have hInside := Segment.gapsInside_resolve (lex_numbered hTokens) (by exact_mod_cast hPeriod)
      hSegments seg hSeg gap hGap
    rw [Segment.stop] at hInside
    rw [hSignal, hPlain.period]
    exact ⟨⟨by omega, by omega⟩, by omega, by omega⟩
  · intro seg hSeg _
    obtain ⟨hStart, hCycles, hStop⟩ := hSpan seg hSeg
    obtain ⟨x, hWithin, hPhase⟩ := hPlain.phase
    rw [hSignal, hPlain.period, hPhase]
    exact Pulse.exists_train hWithin (natAbs_le ⟨by omega, by omega⟩ le_rfl) seg.isRising

/-- A document with plain signals under the default options. -/
theorem Document.steady_of_plain {d : Document Quantity} (hOptions : d.options = Options.default)
    (hPlain : ∀ s ∈ d.signals, s.Plain)
    (hLengths : ∀ s ∈ d.signals, ∀ c, s.compile.outcome = .ok c →
      c.length < lengthLimit ∧ c.length ≤ Memory.capacity)
    (hDepths : ∀ step ∈ Item.walk d.items, (step.2 : Int) < Room.countRange)
    (hLabels : ∀ e ∈ d.edges, ∀ label ∈ e.label, (label.length : Int) < Room.countRange) :
    d.Steady where
  options := hOptions ▸ Options.steady_default
  signals s hs c hc :=
    Compiled.steady_of_compile (hPlain s hs) hc (hLengths s hs c hc).1 (hLengths s hs c hc).2
  depths step hStep := small_of_countable (hDepths step hStep)
  labels e he label hLabel := small_of_countable (hLabels e he label hLabel)

/-- There is no array of so many columns. -/
theorem Layout.ofItems_eq_error {o : Options Quantity} {items : List (Item (Compiled Quantity))}
    {s : Compiled Quantity} (hs : s ∈ Item.leavesAll items) (hLong : lengthLimit ≤ s.length)
    (head foot : Option Caption) : ofItems o items head foot = .error (.fault .badValue) := by
  have hLongest : lengthLimit ≤ Compiled.longest (Item.signals items) :=
    hLong.trans (Compiled.length_le_longest (Item.signals_eq_leavesAll items ▸ hs))
  have hFilled : Scalar.filled (Compiled.longest (Item.signals items)) o.scaledCycleWidth =
      .error .badValue := by
    change Quantity.filled _ _ = _
    rw [Quantity.filled, if_pos hLongest]
    rfl
  rw [ofItems, frameOf, Grid.build, Grid.columnWidths, hFilled]
  rfl

/-- A document with a signal of so many cycles is refused, be it as sound as it may. -/
theorem Document.render_of_overflow {d : Document Quantity} (hSound : ∀ s ∈ d.signals, s.Sound)
    {s : Signal Quantity} (hs : s ∈ d.signals) {c : Compiled Quantity}
    (hc : s.compile.outcome = .ok c) (hLong : lengthLimit ≤ c.length) :
    d.render.outcome = .error (.fault .badValue) := by
  obtain ⟨items, hItems, hCompiled⟩ := compile_of_sound hSound
  obtain ⟨other, hOther, hSame⟩ := exists_of_mem_forall₂ hCompiled.flip hs
  obtain rfl := Except.ok.inj (hc.symm.trans hSame)
  have hLayout := Layout.ofItems_eq_error (o := d.options) hOther hLong d.head d.foot
  rw [outcome_render, hItems, ok_bind, Layout.compute_eq_error hLayout, error_bind]

end TimingDiagram
