import TimingDiagram.Proofs.Figure.ClockMarks
import TimingDiagram.Proofs.Wave.Borders

/-! The edges of tokens in a figure, in exact arithmetic. Without a phase the line before a token ends at
the level that the token leaves and the line of the token starts at the level that it enters, so that
what is drawn between them is the edge of the token. -/
namespace TimingDiagram

/-- Whether an edge leads up; a steady one leads nowhere. -/
def Transition.up? : Transition → Option Bool
  | steady => none
  | rising => some true
  | falling => some false

theorem Token.up?_edge {t : Token} {u v : Level} (hOwn : t.tag.isContinuation = false)
    (hBefore : t.previous.bind Tag.exit? = some u) (hAfter : t.resolved.entry? = some v) :
    t.edge.up? = u.turn? v := by
  rw [edge_eq hOwn hBefore hAfter, Level.turn?]
  split_ifs with hSame hUp
  · rfl
  · rw [decide_eq_true hUp]
    rfl
  · rw [decide_eq_false hUp]
    rfl

/-- The way to the lowest level leads down, and the way to the highest one leads up. -/
theorem Level.turn?_of_extreme (u : Level) {v : Level} (h : v = .low ∨ v = .high) :
    u.turn? v = if u = v then none else some (decide (v = .high)) := by
  rcases h with rfl | rfl <;> cases u <;> rfl

/-- A clock enters its opening level and leaves the other one. -/
theorem Tag.ends_of_clock {tag : Tag} (h : SegmentKind.ofTag tag = .clock) :
    tag.entry? = some (Level.opening tag.isRising) ∧
      tag.exit? = some (Level.closing tag.isRising) := by
  cases tag <;> simp_all [SegmentKind.ofTag, isClock, entry?, exit?, isRising, Level.opening,
    Level.closing]

variable {K : Type} [Field K] [LinearOrder K] [IsStrictOrderedRing K] [FloorRing K] [Scalar K]
  [ExactScalar K]

/-- A marked level carries an arrow where the line before it ends at another level. -/
theorem Lane.markers_level {l : Lane K} {before p : PlacedSegment K} {u v : Level}
    (hHeight : 0 < l.height) (hMarked : p.segment.isMarked = true) (hKind : p.segment.kind = .level)
    (hBefore : before.exit? = some u) (hLevel : p.segment.level = some v) :
    l.markers p (some before) = if u = v then [] else [l.arrowMarker p.x₀ (v = .high)] := by
  have hSame : (l.heightBefore (some before) == some (l.levelY v)) = decide (some u = some v) := by
    rw [heightBefore_beq hHeight, Option.bind_some, hBefore]
  simp only [markers, hMarked, hKind, hLevel, Option.map_some, hSame, Option.some_inj]
  simp

namespace PlacedSegment.Ticks

variable {p : PlacedSegment K} {l : Layout K} {s : Signal K} {first : PlacedPulse K}
  {turns : List (PlacedPulse K)}

/-- A clock without a phase is drawn from its opening level on. -/
theorem entry?_eq (h : p.Ticks l s first turns) (hClock : p.segment.kind = .clock)
    (hPeriod : 1 ≤ s.period) (hPhase : s.phase = 0) :
    p.entry? = some (Level.opening p.segment.isRising) := by
  obtain ⟨train, hTrain, hLevels⟩ := h.map_level
  rw [hPhase] at hTrain
  have hHead := Pulse.head?_train hPeriod hTrain
  rw [← List.head?_map, ← hLevels, List.head?_map] at hHead
  rw [(ends_of_clock hClock).1, h.pulses]
  exact hHead

/-- Over whole periods it is drawn up to the other level. -/
theorem exit?_eq (h : p.Ticks l s first turns) (hClock : p.segment.kind = .clock)
    (hPeriod : 1 ≤ s.period) (hPhase : s.phase = 0) {count : Nat} (hCount : 1 ≤ count)
    (hCycles : p.segment.cycles = count * s.period) :
    p.exit? = some (Level.closing p.segment.isRising) := by
  obtain ⟨train, hTrain, hLevels⟩ := h.map_level
  rw [hPhase, hCycles] at hTrain
  have hLast := Pulse.getLast?_train hPeriod hCount hTrain
  rw [← List.getLast?_map, ← hLevels, List.getLast?_map] at hLast
  rw [(ends_of_clock hClock).2, h.pulses]
  exact hLast

end PlacedSegment.Ticks

namespace Diagram

variable {g : Diagram K} {o : Options K} {l : Layout K} {c : Compiled K} {s : PlacedSignal K}
  {lane : Lane K} {strokes before after : List (Stroke K)} {a b : Stroke K} {p : PlacedSegment K}
  {t : Token}

/-- A line that starts with a token starts at the level that the token enters. -/
theorem Renders.entry_of_token (h : g.Renders o l c s lane strokes) (hPhase : c.signal.phase = 0)
    (hp : p ∈ s.segments) (hLine : p.segment.isBox = false) (ht : t ∈ c.tokens)
    (hStart : p.segment.start = t.index * c.signal.period) :
    ∃ v, p.entry? = some v ∧ t.resolved.entry? = some v := by
  obtain ⟨hTag, hKind, hLevel⟩ :=
    opening_of_compile h.own.period h.own.compiles (h.mem_compiled hp) ht hStart
  rcases Segment.kind_of_isBox_eq_false hLine with hSteady | hClock
  · obtain ⟨v, hv⟩ := Option.ne_none_iff_exists'.mp ((h.drawable p hp).level hSteady)
    refine ⟨v, ?_, ?_⟩
    · rw [(PlacedSegment.ends_of_level hSteady).1, hv]
    · rw [(Tag.ends_of_level (hKind.symm.trans hSteady)).1, ← hLevel, hv]
  · obtain ⟨first, turns, hTicks⟩ := h.ticks p hp hClock
    have hRising : p.segment.isRising = t.resolved.isRising := by
      rw [Segment.isRising, hTag]
      rfl
    refine ⟨_, hTicks.entry?_eq hClock h.own.period hPhase, ?_⟩
    rw [hRising]
    exact (Tag.ends_of_clock (hKind.symm.trans hClock)).1

/-- A line that ends where a token starts ends at the level that the token leaves. -/
theorem Renders.exit_of_token (h : g.Renders o l c s lane strokes) (hPhase : c.signal.phase = 0)
    (hp : p ∈ s.segments) (hLine : p.segment.isBox = false) (ht : t ∈ c.tokens)
    (hStop : p.segment.stop = t.index * c.signal.period) :
    ∃ u, p.exit? = some u ∧ t.previous.bind Tag.exit? = some u := by
  have hMem := h.mem_compiled hp
  obtain ⟨before, hPrevious, hLook⟩ :=
    closing_of_compile h.own.period h.own.compiles hMem ht hStop
  simp only [Token.look, Segment.look, Look.mk.injEq] at hLook
  obtain ⟨hKind, hLevel, _, hTag⟩ := hLook
  rw [hPrevious, Option.bind_some]
  rcases Segment.kind_of_isBox_eq_false hLine with hSteady | hClock
  · obtain ⟨u, hu⟩ := Option.ne_none_iff_exists'.mp ((h.drawable p hp).level hSteady)
    refine ⟨u, ?_, ?_⟩
    · rw [(PlacedSegment.ends_of_level hSteady).2, hu]
    · rw [(Tag.ends_of_level (hKind.symm.trans hSteady)).2, ← hLevel, hu]
  · obtain ⟨first, turns, hTicks⟩ := h.ticks p hp hClock
    obtain ⟨count, hCount, hCycles⟩ := cycles_of_compile h.own.period h.own.compiles hMem hStop
    rw [if_pos hClock, if_pos (hKind.symm.trans hClock)] at hTag
    have hRising : p.segment.isRising = before.resolved.isRising := by
      rw [Segment.isRising, hTag]
      rfl
    refine ⟨_, hTicks.exit?_eq hClock h.own.period hPhase hCount hCycles, ?_⟩
    rw [hRising]
    exact (Tag.ends_of_clock (hKind.symm.trans hClock)).2

/-- Where a token starts a line after another line, the lines meet at the ends of its edge. -/
theorem Renders.levels_of_token (h : g.Renders o l c s lane strokes) (hPhase : c.signal.phase = 0)
    (hSplit : strokes = before ++ a :: b :: after) (hA : a.IsLine) (hB : b.IsLine) (ht : t ∈ c.tokens)
    (hOwn : t.tag.isContinuation = false)
    (hStart : b.segment.segment.start = t.index * c.signal.period) :
    ∃ u v, a.segment.exit? = some u ∧ b.segment.entry? = some v ∧ t.edge.up? = u.turn? v := by
  have hStop : a.segment.segment.stop = t.index * c.signal.period :=
    (h.meets hSplit).2.symm.trans hStart
  obtain ⟨u, hExit, hBefore⟩ :=
    h.exit_of_token hPhase (h.segment_mem (by simp [hSplit])) hA ht hStop
  obtain ⟨v, hEntry, hAfter⟩ :=
    h.entry_of_token hPhase (h.segment_mem (by simp [hSplit])) hB ht hStart
  exact ⟨u, v, hExit, hEntry, Token.up?_edge hOwn hBefore hAfter⟩

/-- What is drawn between two lines is the edge of the token that starts the second one. -/
theorem Renders.transits_of_token (h : g.Renders o l c s lane strokes) (hHeight : 0 < o.waveHeight)
    (hPhase : c.signal.phase = 0) (hSplit : strokes = before ++ a :: b :: after) (hA : a.IsLine)
    (hB : b.IsLine) (ht : t ∈ c.tokens) (hOwn : t.tag.isContinuation = false)
    (hStart : b.segment.segment.start = t.index * c.signal.period) :
    List.Forall₂ (fun up q => q.Transits b.segment.x₀ o.transitionOffset up) t.edge.up?.toList
      a.joint := by
  obtain ⟨u, v, hExit, hEntry, hEdge⟩ := h.levels_of_token hPhase hSplit hA hB ht hOwn hStart
  rw [hEdge, (h.meets hSplit).1.joint, ← h.measures.reach]
  exact Lane.transits_joint (h.measures.height ▸ hHeight) hExit hEntry

/-- The arrow of a marked level is the edge of its token. -/
theorem Renders.arrows_of_token (h : g.Renders o l c s lane strokes) (hHeight : 0 < o.waveHeight)
    (hPhase : c.signal.phase = 0) (hSplit : strokes = before ++ a :: b :: after) (hA : a.IsLine)
    (hB : b.IsLine) (ht : t ∈ c.tokens) (hTag : t.tag = .lowMarked ∨ t.tag = .highMarked)
    (hStart : b.segment.segment.start = t.index * c.signal.period) :
    List.Forall₂ (fun up q => q.Arrow b.segment.x₀ (s.y + o.waveHeight / 2) up) t.edge.up?.toList
      b.markers := by
  have hOwn : t.tag.isContinuation = false := by
    rcases hTag with hTag | hTag <;> rw [hTag] <;> rfl
  obtain ⟨u, v, hExit, hEntry, hEdge⟩ := h.levels_of_token hPhase hSplit hA hB ht hOwn hStart
  obtain ⟨hDrawn, hKind, hLevel⟩ := opening_of_compile h.own.period h.own.compiles
    (h.mem_compiled (h.segment_mem (by simp [hSplit]))) ht hStart
  obtain ⟨_, hTokens, _⟩ := Signal.of_compile h.own.compiles
  rw [lex_resolved hTokens t ht hOwn] at hDrawn hKind hLevel
  -- Both marked levels are the ends of the lane, which decides where the arrow points.
  obtain ⟨hMarked, hSteady, hExtreme⟩ : b.segment.segment.isMarked = true ∧
      b.segment.segment.kind = .level ∧
      (b.segment.segment.level = some .low ∨ b.segment.segment.level = some .high) := by
    rcases hTag with hTag | hTag <;> rw [Segment.isMarked, hDrawn, hKind, hLevel, hTag]
    · exact ⟨rfl, rfl, .inl rfl⟩
    · exact ⟨rfl, rfl, .inr rfl⟩
  have hOwnLevel : b.segment.segment.level = some v :=
    (PlacedSegment.ends_of_level hSteady).1.symm.trans hEntry
  rw [hOwnLevel, Option.some_inj, Option.some_inj] at hExtreme
  have hNext : strokes = (before ++ [a]) ++ b :: after := by simp [hSplit]
  have hMarkers := h.markers_eq hNext
  rw [List.getLast?_concat, Option.map_some,
    Lane.markers_level (h.measures.height ▸ hHeight) hMarked hSteady hExit hOwnLevel] at hMarkers
  rw [hEdge, Level.turn?_of_extreme u hExtreme, hMarkers, ← h.measures.middle]
  split_ifs
  · exact .nil
  · exact .cons (lane.arrow_arrowMarker _ _) .nil

end Diagram

namespace Description

/-- The edges of the tokens of a document are what is drawn. Where an explicit token of a signal without
a phase starts a line that follows another line, the two meet in a transition exactly if the token has
an edge, in its direction; a marked level carries an arrow in this direction there, and none without an
edge. A level token within the cycles of a signal that starts no segment has no edge. -/
theorem render_draws_edges {description : Description K} {options : Option (Options K)} {g : Diagram K}
    (hPromised : description.Promised) (hOptions : ∀ o ∈ options, o.check = .ok ())
    (h : (description.render options).outcome = .ok g) :
    ∃ d l, (description.load options).outcome = .ok d ∧ g.layout = some l ∧
      List.Forall₂ (fun (s : Signal K) (placed : PlacedSignal K) => placed.name = s.name ∧
        ∃ (c : Compiled K) (strokes : List (Stroke K)), s.compile.outcome = .ok c ∧
        placed.segments.map PlacedSegment.segment = c.segments ∧ g.Shows placed strokes ∧
        (s.phase = 0 → ∀ (before : List (Stroke K)) (a b : Stroke K) (after : List (Stroke K)),
          strokes = before ++ a :: b :: after → a.IsLine → b.IsLine → ∀ t ∈ c.tokens,
            t.tag.isContinuation = false → b.segment.segment.start = t.index * s.period →
            List.Forall₂ (fun up q => q.Transits b.segment.x₀ d.options.transitionOffset up)
                t.edge.up?.toList a.joint ∧
              (t.tag = .lowMarked ∨ t.tag = .highMarked →
                List.Forall₂ (fun up q => q.Arrow b.segment.x₀ (placed.y + d.options.waveHeight / 2) up)
                  t.edge.up?.toList b.markers)) ∧
        ∀ (i : Nat) (before t : Token), c.tokens[i]? = some before → c.tokens[i + 1]? = some t →
          t.tag.level? ≠ none → (i + 1) * s.period < c.length →
          (∀ seg ∈ c.segments, seg.start ≠ (i + 1 : Nat) * s.period) → t.edge = .steady)
        d.signals l.signals := by
  obtain ⟨d, l, hLoad, hLayout, hAccepted, hSignals⟩ := renders_of_render hPromised hOptions h
  refine ⟨d, l, hLoad, hLayout, hSignals.imp ?_⟩
  rintro s placed ⟨c, lane, strokes, rfl, hRenders⟩
  refine ⟨hRenders.name, c, strokes, hRenders.own.compiles, hRenders.segments, hRenders.shows, ?_, ?_⟩
  · intro hPhase before a b after hSplit hA hB t ht hOwn hStart
    exact ⟨hRenders.transits_of_token hAccepted.waveHeight hPhase hSplit hA hB ht hOwn hStart,
      fun hTag => hRenders.arrows_of_token hAccepted.waveHeight hPhase hSplit hA hB ht hTag hStart⟩
  · intro i before t hBefore ht hLevel hInside hSilent
    exact steady_of_silent hRenders.own.period hRenders.own.compiles hBefore ht hLevel hInside hSilent

/-- A lane without a phase. -/
noncomputable def prompt (wave : String) (cycles : Option Nat) : Signal ℝ :=
  { name := "a", wave, phase := 0, cycles }

theorem compile_prompt : (prompt "0H" none).compile.outcome = .ok ⟨prompt "0H" none,
    [⟨0, '0', .low, .low, none, 0, none, none⟩, ⟨1, 'H', .highMarked, .highMarked, some .low, 0, none, none⟩],
    [{ kind := .level, start := 0, cycles := 1, level := some .low, tag := some .low },
      { kind := .level, start := 1, cycles := 1, level := some .high, tag := some .highMarked }], 2⟩ := by
  have hTokens : lex "0H" .absent "a" none = .ok [⟨0, '0', .low, .low, none, 0, none, none⟩,
      ⟨1, 'H', .highMarked, .highMarked, some .low, 0, none, none⟩] := by cbv
  rw [Signal.outcome_compile]
  simp only [prompt, hTokens]
  rfl

/-- A marked level after a lower one: the line steps up, and an arrow points up. -/
theorem render_draws_edges_prompt :
    (parsed (Document.lone (prompt "0H" none))).Promised ∧
      ∃ g, ((parsed (Document.lone (prompt "0H" none))).render none).outcome = .ok g ∧
        ∃ placed a b q m, g.Shows placed [a, b] ∧ a.joint = [q] ∧ q.Transits b.segment.x₀ 4 true ∧
          b.markers = [m] ∧ m.Arrow b.segment.x₀ (placed.y + 12) true := by
  have hValid : (Document.lone (prompt "0H" none)).Valid := Document.valid_lone le_rfl
  obtain ⟨g, hg⟩ : Succeeds ((parsed (Document.lone (prompt "0H" none))).render none).outcome :=
    Document.render_lone [⟨'0', .low, none⟩, ⟨'H', .highMarked, none⟩] le_rfl rfl (by decide)
      (by decide) (by decide)
  obtain ⟨d, l, hLoad, _, hSignals⟩ := render_draws_edges hValid.promised (by simp) hg
  obtain rfl : Document.lone (prompt "0H" none) = d := Except.ok.inj hLoad
  obtain ⟨placed, _, _, c, strokes, hc, hSegments, hShows, hEdges, _⟩ := Document.forall₂_lone hSignals
  obtain rfl := Except.ok.inj (compile_prompt.symm.trans hc)
  obtain ⟨_, _, _, _, _, hTraced⟩ := id hShows
  rw [← hTraced.segments, List.map_map] at hSegments
  obtain ⟨a, rest, rfl, hA, hRest⟩ := List.map_eq_cons_iff.mp hSegments
  obtain ⟨b, rfl, hB⟩ := List.map_eq_singleton_iff.mp hRest
  change a.segment.segment = _ at hA
  change b.segment.segment = _ at hB
  obtain ⟨hTransits, hArrows⟩ := hEdges rfl [] a b [] rfl (by rw [Stroke.IsLine, hA]; rfl)
    (by rw [Stroke.IsLine, hB]; rfl) _ (List.mem_cons_of_mem _ (List.mem_singleton_self _)) rfl
    (by rw [hB]; rfl)
  have hReach : (Document.lone (prompt "0H" none)).options.transitionOffset = 4 := by
    simp [Document.lone, Options.default]
  have hHalf : (24 : ℝ) / 2 = 12 := by norm_num
  rw [hReach] at hTransits
  have hMarks := hArrows (.inr rfl)
  rw [Document.waveHeight_lone, hHalf] at hMarks
  obtain ⟨q, _, hUp, hNone, hJoint⟩ := List.forall₂_cons_left_iff.mp hTransits
  obtain ⟨m, _, hArrow, hNoMore, hMarkers⟩ := List.forall₂_cons_left_iff.mp hMarks
  rw [List.forall₂_nil_left_iff.mp hNone] at hJoint
  rw [List.forall₂_nil_left_iff.mp hNoMore] at hMarkers
  exact ⟨hValid.promised, g, hg, placed, a, b, q, m, hShows, hJoint, hUp, hMarkers, hArrow⟩

/-- The second symbol lies past the only cycle of the signal. It has an edge, although it is a level
after a line and starts no segment. -/
theorem edge_past_end :
    ∃ g c, ((parsed (Document.lone (prompt "01" (some 1)))).render none).outcome = .ok g ∧
      (prompt "01" (some 1)).compile.outcome = .ok c ∧ ∃ before t, c.tokens = [before, t] ∧
        before.resolved = .low ∧ t.tag = .high ∧ (∀ seg ∈ c.segments, seg.start ≠ t.index) ∧
        t.edge = .rising := by
  have hTokens : lex "01" .absent "a" none = .ok [⟨0, '0', .low, .low, none, 0, none, none⟩,
      ⟨1, '1', .high, .high, some .low, 0, none, none⟩] := by cbv
  obtain ⟨g, hg⟩ : Succeeds ((parsed (Document.lone (prompt "01" (some 1)))).render none).outcome :=
    Document.render_lone [⟨'0', .low, none⟩, ⟨'1', .high, none⟩] le_rfl rfl (by decide)
      (by decide) (by decide)
  have hCompile : (prompt "01" (some 1)).compile.outcome = .ok ⟨prompt "01" (some 1),
      [⟨0, '0', .low, .low, none, 0, none, none⟩, ⟨1, '1', .high, .high, some .low, 0, none, none⟩],
      [{ kind := .level, start := 0, cycles := 1, level := some .low, tag := some .low }], 1⟩ := by
    rw [Signal.outcome_compile]
    simp only [prompt, hTokens]
    rfl
  exact ⟨g, _, hg, hCompile, _, _, rfl, rfl, rfl, by simp, by decide⟩

end Description
end TimingDiagram
