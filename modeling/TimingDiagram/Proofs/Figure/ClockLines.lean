import TimingDiagram.Proofs.Figure.Strokes

/-! The lines of clocks in exact arithmetic. A clock is drawn as one line that goes to the right at one
of two heights and steps to the other one at each of its turns. -/
namespace TimingDiagram

section Points

variable {K : Type} [DecidableEq K]

/-- The vertical steps of a line: the pairs of points that follow one another and differ in their
height alone. -/
def verticals : List (Point K) → List (Point K × Point K)
  | a :: b :: rest => (if a.x = b.x ∧ a.y ≠ b.y then [(a, b)] else []) ++ verticals (b :: rest)
  | _ => []

/-- The step at a turn of a clock: up to the high level, and down to the low one. -/
def PlacedPulse.step (top bottom : K) (turn : PlacedPulse K) : Point K × Point K :=
  if turn.level = .high then (⟨turn.x, bottom⟩, ⟨turn.x, top⟩) else (⟨turn.x, top⟩, ⟨turn.x, bottom⟩)

/-- A line that goes from the start of a segment to its end, to the right or straight up and down
between two heights, with one vertical step at each of the turns and no other one. -/
structure StepCurve [LE K] (points : List (Point K)) (p : PlacedSegment K) (top bottom : K)
    (turns : List (PlacedPulse K)) : Prop where
  start : points.head?.map Point.x = some p.x₀
  stop : points.getLast?.map Point.x = some p.x₁
  aligned : points.IsChain fun a b => a.x = b.x ∨ a.y = b.y
  forward : points.IsChain fun a b => a.x ≤ b.x
  heights : ∀ q ∈ points, q.y = top ∨ q.y = bottom
  steps : verticals points = turns.map (PlacedPulse.step top bottom)

end Points

namespace Lane

section Any

variable {K : Type} [Add K] [Mul K] [Scalar K]

/-- The points of a clock past its first one: two at every turn, and the last one. -/
def trail (l : Lane K) (stop : K) (level : Level) : List (PlacedPulse K) → List (Point K)
  | [] => [⟨stop, l.levelY level⟩]
  | turn :: rest =>
      ⟨turn.x, l.levelY level⟩ :: ⟨turn.x, l.levelY turn.level⟩ :: l.trail stop turn.level rest

variable (l : Lane K) (x stop : K) (level : Level) (turns : List (PlacedPulse K))

theorem turns_eq_trail : (l.turns level turns).1 ++ [⟨stop, l.levelY (l.turns level turns).2⟩] =
    l.trail stop level turns := by
  induction turns generalizing level with
  | nil => rfl
  | cons turn rest ih =>
      rw [trail, ← ih]
      rfl

variable {turns} in
theorem clockPoints_eq {p : PlacedSegment K} {first : PlacedPulse K} (h : p.pulses = first :: turns) :
    l.clockPoints p = ⟨p.x₀, l.levelY first.level⟩ :: l.trail p.x₁ first.level turns := by
  rw [clockPoints, h, ← turns_eq_trail]
  rfl

theorem getLast?_trail (a : Point K) :
    (a :: l.trail stop level turns).getLast?.map Point.x = some stop := by
  induction turns generalizing a level with
  | nil => rfl
  | cons turn rest ih => exact ih turn.level _

theorem aligned_trail :
    (⟨x, l.levelY level⟩ :: l.trail stop level turns).IsChain fun a b => a.x = b.x ∨ a.y = b.y := by
  induction turns generalizing x level with
  | nil => exact .cons_cons (.inr rfl) (.singleton _)
  | cons turn rest ih => exact .cons_cons (.inr rfl) (.cons_cons (.inl rfl) (ih _ _))

variable {x stop turns} in
theorem forward_trail [Preorder K] (h : (x :: (turns.map PlacedPulse.x ++ [stop])).IsChain (· ≤ ·)) :
    (⟨x, l.levelY level⟩ :: l.trail stop level turns).IsChain fun a b => a.x ≤ b.x := by
  induction turns generalizing x level with
  | nil => exact .cons_cons (List.isChain_pair.mp h) (.singleton _)
  | cons turn rest ih =>
      obtain ⟨hTurn, hRest⟩ := List.isChain_cons_cons.mp h
      exact .cons_cons hTurn (.cons_cons le_rfl (ih _ hRest))

theorem heights_trail (first : PlacedPulse K) :
    ∀ q ∈ l.trail stop first.level turns, ∃ turn ∈ first :: turns, q.y = l.levelY turn.level := by
  induction turns generalizing first with
  | nil => exact List.forall_mem_singleton.mpr ⟨first, List.mem_singleton_self _, rfl⟩
  | cons turn rest ih =>
      refine List.forall_mem_cons.mpr ⟨⟨first, List.mem_cons_self, rfl⟩,
        List.forall_mem_cons.mpr ⟨⟨turn, by simp, rfl⟩, fun q hq => ?_⟩⟩
      obtain ⟨other, hOther, hHeight⟩ := ih turn q hq
      exact ⟨other, List.mem_cons_of_mem _ hOther, hHeight⟩

end Any

variable {K : Type} [Field K] [LinearOrder K] [IsStrictOrderedRing K] [FloorRing K] [Scalar K]
  [ExactScalar K] {l : Lane K} {first : PlacedPulse K} {turns : List (PlacedPulse K)}

theorem levelY_high (l : Lane K) : l.levelY .high = l.top := by
  rw [levelY_eq, Level.rank]
  push_cast
  ring

theorem levelY_low (l : Lane K) : l.levelY .low = l.top + l.height := by
  rw [levelY_eq, Level.rank]
  push_cast
  ring

/-- A line steps to another level at every turn, and nowhere else. -/
theorem verticals_trail (hHeight : 0 < l.height) (x stop : K)
    (hAlternate : (first :: turns).IsChain fun a b => a.level ≠ b.level)
    (hLevels : ∀ turn ∈ first :: turns, turn.level = .high ∨ turn.level = .low) :
    verticals (⟨x, l.levelY first.level⟩ :: l.trail stop first.level turns) =
      turns.map (PlacedPulse.step (l.levelY .high) (l.levelY .low)) := by
  induction turns generalizing x first with
  | nil => simp [trail, verticals]
  | cons turn rest ih =>
      obtain ⟨hOther, hRest⟩ := List.isChain_cons_cons.mp hAlternate
      obtain ⟨hFirst, hTurns⟩ := List.forall_mem_cons.mp hLevels
      have hStep : turn.step (l.levelY .high) (l.levelY .low) =
          (⟨turn.x, l.levelY first.level⟩, ⟨turn.x, l.levelY turn.level⟩) := by
        rcases hFirst with hFirst | hFirst <;>
          rcases hTurns turn List.mem_cons_self with hTurn | hTurn
        · exact absurd (hFirst.trans hTurn.symm) hOther
        · rw [PlacedPulse.step, hFirst, hTurn]
          rfl
        · rw [PlacedPulse.step, hFirst, hTurn]
          rfl
        · exact absurd (hFirst.trans hTurn.symm) hOther
      have hUneven : l.levelY first.level ≠ l.levelY turn.level := mt (levelY_inj hHeight).mp hOther
      rw [trail, verticals, if_neg (by simp), verticals, if_pos ⟨rfl, hUneven⟩, ih turn.x hRest hTurns,
        List.map_cons, hStep]
      rfl

/-- The line of a clock is a step curve through its turns. -/
theorem stepCurve_clockPoints (hHeight : 0 < l.height) {p : PlacedSegment K} {layout : Layout K}
    {s : Signal K} (h : p.Ticks layout s first turns) :
    StepCurve (l.clockPoints p) p l.top (l.top + l.height) turns := by
  have hOrder : (p.x₀ :: (turns.map PlacedPulse.x ++ [p.x₁])).IsChain (· ≤ ·) := by
    have hTurns := h.increasing
    rw [List.map_cons, h.opens] at hTurns
    have hAll : ((p.x₀ :: turns.map PlacedPulse.x) ++ [p.x₁]).Pairwise (· < ·) :=
      List.pairwise_append.mpr ⟨hTurns, List.pairwise_singleton _ _,
        List.forall_mem_cons.mpr ⟨by simpa using h.room, by simpa using fun t ht => (h.inside t ht).2⟩⟩
    exact (hAll.imp le_of_lt).isChain
  rw [l.clockPoints_eq h.pulses]
  refine {
    start := rfl
    stop := l.getLast?_trail _ _ _ _
    aligned := l.aligned_trail _ _ _ _
    forward := l.forward_trail _ hOrder
    heights := fun q hq => ?_
    steps := ?_ }
  · obtain ⟨turn, hTurn, hHeight⟩ : ∃ turn ∈ first :: turns, q.y = l.levelY turn.level := by
      rcases List.mem_cons.mp hq with rfl | hq
      · exact ⟨first, List.mem_cons_self, rfl⟩
      · exact l.heights_trail _ _ _ q hq
    rw [hHeight, ← levelY_low, ← levelY_high]
    exact (h.levels turn hTurn).imp (congrArg l.levelY) (congrArg l.levelY)
  · rw [verticals_trail hHeight _ _ h.alternate h.levels, levelY_high, levelY_low]

end Lane

namespace Description

variable {K : Type} [Field K] [LinearOrder K] [IsStrictOrderedRing K] [FloorRing K] [Scalar K]
  [ExactScalar K]

/-- Every clock of a document is drawn as a step curve. Its turns are those of its pulse train, at their
places strictly inside of the segment and each further to the right than the one before it. The line
goes from the start of the segment to its end between the top and the bottom of the lane, never to the
left, and steps up or down once at each turn and nowhere else. -/
theorem render_steps_clocks {description : Description K} {options : Option (Options K)} {g : Diagram K}
    (hPromised : description.Promised) (hOptions : ∀ o ∈ options, o.check = .ok ())
    (h : (description.render options).outcome = .ok g) :
    ∃ d l, (description.load options).outcome = .ok d ∧ g.layout = some l ∧
      List.Forall₂ (fun s placed => placed.name = s.name ∧ ∃ c strokes,
        s.compile.outcome = .ok c ∧ placed.segments.map PlacedSegment.segment = c.segments ∧
        g.Shows placed strokes ∧ ∀ stroke ∈ strokes, stroke.segment.segment.kind = .clock →
          ∃ first turns line, stroke.segment.Ticks l s first turns ∧ stroke.body = [line] ∧
            line.role = .clock ∧ StepCurve line.points stroke.segment placed.y
              (placed.y + d.options.waveHeight) turns)
        d.signals l.signals := by
  obtain ⟨d, l, hLoad, hLayout, hAccepted, hSignals⟩ := renders_of_render hPromised hOptions h
  refine ⟨d, l, hLoad, hLayout, hSignals.imp ?_⟩
  rintro s placed ⟨c, lane, strokes, rfl, hRenders⟩
  refine ⟨hRenders.name, c, strokes, hRenders.own.compiles, hRenders.segments, hRenders.shows,
    fun stroke hStroke hClock => ?_⟩
  obtain ⟨start, hTraces⟩ := hRenders.carries.traces
  obtain ⟨first, turns, hTicks⟩ := hRenders.ticks _ (hRenders.segment_mem hStroke) hClock
  have hMeasures := hRenders.measures
  have hHeight : 0 < lane.height := hMeasures.height ▸ hAccepted.waveHeight
  have hBody := (hTraces.draws stroke hStroke).body
  rw [Lane.body_clock hClock, Except.ok.injEq] at hBody
  refine ⟨first, turns, _, hTicks, hBody.symm, rfl, ?_⟩
  rw [← hMeasures.top, ← hMeasures.height]
  exact Lane.stepCurve_clockPoints hHeight hTicks

/-- A lane that is late by a quarter of a cycle. -/
noncomputable def late (wave : String) (cycles : Option Nat) : Signal ℝ :=
  { name := "clk", wave, phase := Scalar.fraction 1 4, cycles }

theorem phase_late (wave : String) (cycles : Option Nat) : (late wave cycles).phase = 1 / 4 := by
  simp [late]

/-- One late cycle of a clock turns twice. -/
theorem levels_late : ∃ train, Pulse.train (Scalar.whole 1) (Scalar.whole (1 : Nat)) (1 / 4 : ℝ) true =
    .ok train ∧ train.map Pulse.level = [.high, .low, .high] := by
  have hTrain := Pulse.train_eq (one_pos : (0 : ℝ) < 1) 1 (1 / 4) true
  have hFirst : ⌊(1 / 4 : ℝ) / (1 / 2) + 1 / 1000000000⌋ = 0 := by
    rw [Int.floor_eq_zero_iff]
    constructor <;> norm_num
  have hEnd : ⌈((1 : ℝ) - 1 / 1000000000 + 1 / 4) / (1 / 2)⌉ = 3 := by
    rw [Int.ceil_eq_iff]
    constructor <;> norm_num
  simp only [Pulse.turnsBetween, Pulse.tolerance_eq, hFirst, hEnd] at hTrain
  refine ⟨_, by rw [Scalar.whole_eq, Scalar.whole_eq, Int.cast_one, Nat.cast_one, Int.cast_one, hTrain],
    rfl⟩

theorem turns_late {p : PlacedSegment ℝ} {l : Layout ℝ} {wave : String} {cycles : Option Nat}
    {first : PlacedPulse ℝ} {turns : List (PlacedPulse ℝ)} (h : p.Ticks l (late wave cycles) first turns)
    (hCycles : p.segment.cycles = 1) (hRising : p.segment.isRising = true) :
    ∃ down up, turns = [down, up] ∧ first.level = .high ∧ down.level = .low ∧ up.level = .high := by
  obtain ⟨train, hTrain, hSame⟩ := h.map_level
  obtain ⟨other, hOther, hLevels⟩ := levels_late
  rw [hCycles, hRising, phase_late] at hTrain
  obtain rfl : train = other := Except.ok.inj (hTrain.symm.trans hOther)
  rw [hLevels, List.map_cons] at hSame
  obtain ⟨hFirst, hTurns⟩ := List.cons.inj hSame
  obtain ⟨down, rest, rfl, hDown, hRest⟩ := List.map_eq_cons_iff.mp hTurns
  obtain ⟨up, rfl, hUp⟩ := List.map_eq_singleton_iff.mp hRest
  exact ⟨down, up, rfl, hFirst, hDown, hUp⟩

theorem compile_late : (late "hP." (some 2)).compile.outcome.map Compiled.segments = .ok [
    { kind := .level, start := 0, cycles := 1, level := some .high, tag := some .highSharp },
    { kind := .clock, start := 1, cycles := 1, tag := some .clockPosMarked }] := by
  have hTokens : lex "hP." .absent "clk" none = .ok [
      ⟨0, 'h', .highSharp, .highSharp, none, 0, none, none⟩,
      ⟨1, 'P', .clockPosMarked, .clockPosMarked, some .highSharp, 0, none, none⟩,
      ⟨2, '.', .again, .clockPosMarked, some .clockPosMarked, 0, none, none⟩] := by cbv
  rw [Signal.outcome_compile, late, hTokens]
  rfl

theorem render_late : (Document.lone (late "hP." (some 2))).Valid ∧
    Succeeds ((parsed (Document.lone (late "hP." (some 2)))).render none).outcome :=
  ⟨Document.valid_lone le_rfl,
    Document.render_lone [⟨'h', .highSharp, none⟩, ⟨'P', .clockPosMarked, none⟩,
      ⟨'.', .again, none⟩] le_rfl rfl (by decide) (by decide) (by decide)⟩

/-- The strokes of a level and a clock after it. -/
theorem exists_strokes_late {g : Diagram ℝ} {c : Compiled ℝ} {placed : PlacedSignal ℝ}
    {strokes : List (Stroke ℝ)} (hc : (late "hP." (some 2)).compile.outcome = .ok c)
    (hSegments : placed.segments.map PlacedSegment.segment = c.segments)
    (hShows : g.Shows placed strokes) :
    ∃ before stroke, strokes = [before, stroke] ∧ before.segment.exit? = some .high ∧
      stroke.segment.segment = { kind := .clock, start := 1, cycles := 1, tag := some .clockPosMarked } := by
  have hCompiled := compile_late
  rw [hc] at hCompiled
  obtain ⟨_, _, _, _, _, hTraced⟩ := hShows
  rw [Except.map, Except.ok.injEq, ← hSegments, ← hTraced.segments, List.map_map] at hCompiled
  obtain ⟨before, rest, rfl, hBefore, hRest⟩ := List.map_eq_cons_iff.mp hCompiled
  obtain ⟨stroke, rfl, hStroke⟩ := List.map_eq_singleton_iff.mp hRest
  refine ⟨before, stroke, rfl, ?_, hStroke⟩
  rw [PlacedSegment.exit?, show before.segment.segment = _ from hBefore]

/-- The clock is cut off after its first cycle, and goes down and up in it. -/
theorem render_steps_clocks_late :
    (parsed (Document.lone (late "hP." (some 2)))).Promised ∧
      ∃ g, ((parsed (Document.lone (late "hP." (some 2)))).render none).outcome = .ok g ∧
        ∃ placed strokes, g.Shows placed strokes ∧ ∃ stroke ∈ strokes,
          ∃ (line : Primitive ℝ) (turns : List (PlacedPulse ℝ)), stroke.body = [line] ∧
            line.role = .clock ∧ line.points.head?.map Point.x = some stroke.segment.x₀ ∧
            turns.length = 2 ∧
            verticals line.points = turns.map (PlacedPulse.step placed.y (placed.y + 24)) := by
  obtain ⟨hValid, g, hg⟩ := render_late
  obtain ⟨d, l, hLoad, _, hSignals⟩ := render_steps_clocks hValid.promised (by simp) hg
  obtain rfl : Document.lone (late "hP." (some 2)) = d := Except.ok.inj hLoad
  obtain ⟨placed, _, _, c, strokes, hc, hSegments, hShows, hClocks⟩ := Document.forall₂_lone hSignals
  obtain ⟨before, stroke, rfl, _, hStroke⟩ := exists_strokes_late hc hSegments hShows
  obtain ⟨first, turns, line, hTicks, hBody, hRole, hCurve⟩ :=
    hClocks stroke (by simp) (by rw [hStroke])
  have hWave := Document.waveHeight_lone (late "hP." (some 2))
  refine ⟨hValid.promised, g, hg, placed, _, hShows, stroke, by simp, line, turns, hBody, hRole,
    hCurve.start, ?_, hWave ▸ hCurve.steps⟩
  obtain ⟨down, up, rfl, _⟩ := turns_late hTicks (by rw [hStroke]) (by rw [hStroke]; rfl)
  rfl

end Description
end TimingDiagram
