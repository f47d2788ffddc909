import TimingDiagram.Proofs.Figure.BrokenEdges
import TimingDiagram.Proofs.Figure.Parts
import TimingDiagram.Proofs.Layout.Segments

/-! The drawn trace of a signal is connected, in any arithmetic. Where two segments meet, what is
drawn of one ends where what is drawn of the other starts, or at the two ends of what is drawn
between them. -/
namespace TimingDiagram

variable {K : Type}

/-- A body that is one line between two points. -/
def LineBody (body : List (Primitive K)) (first last : Point K) : Prop :=
  ∃ line, body = [line] ∧ (line.role = .level ∨ line.role = .clock) ∧
    line.points.head? = some first ∧ line.points.getLast? = some last

/-- A body that is a box between two sides, each given from top to bottom: the sides close its
fill, and its two lines go from corner to corner. -/
def BoxBody (body : List (Primitive K)) (left right : List (Point K)) : Prop :=
  ∃ fill upper lower rest, body = fill :: upper :: lower :: rest ∧
    fill.role = .fill ∧ fill.points = left.reverse ++ right ∧
    upper.role = .box ∧ upper.points.head? = left.head? ∧ upper.points.getLast? = right.head? ∧
    lower.role = .box ∧ lower.points.head? = left.getLast? ∧
      lower.points.getLast? = right.getLast?

/-- A side of a box that is drawn as a line. -/
def StrokedSide (body : List (Primitive K)) (side : List (Point K)) : Prop :=
  ∃ line ∈ body, line.role = .box ∧ line.points = side

namespace Stroke

def IsLine (s : Stroke K) : Prop := s.segment.segment.isBox = false

def IsBox (s : Stroke K) : Prop := s.segment.segment.isBox = true

/-- Two strokes that are drawn one after the other without a break between them. -/
structure Connected [BEq K] (a b : Stroke K) : Prop where
  border : a.segment.x₁ = b.segment.x₀
  /-- Two lines end and start at one point, or at the ends of a single transition. -/
  lines : a.IsLine → b.IsLine → ∃ first p q last,
    LineBody a.body first p ∧ LineBody b.body q last ∧
      (p.x = q.x ∧ (p.y == q.y) = true ∧ a.joint = [] ∨
        ∃ t, a.joint = [t] ∧ t.points.head? = some p ∧ t.points.getLast? = some q)
  /-- A line ends at the tip of the box after it. -/
  opening : a.IsLine → b.IsBox → ¬ HardEdge a.segment b.segment →
    ∃ first upper tip lower right fan,
      LineBody a.body first tip ∧ BoxBody b.body [upper, tip, lower] right ∧
        a.joint = [fan] ∧ fan.points = [upper, tip, lower]
  /-- A box ends in a tip at which the line after it starts. -/
  closing : a.IsBox → b.IsLine → ¬ HardEdge a.segment b.segment →
    ∃ left upper tip lower last fan,
      BoxBody a.body left [upper, tip, lower] ∧ LineBody b.body tip last ∧
        a.joint = [fan] ∧ fan.points = [upper, tip, lower]
  /-- A line ends where the vertical side of the box after it is drawn. -/
  hardOpening : a.IsLine → b.IsBox → HardEdge a.segment b.segment →
    a.joint = [] ∧ ∃ first p top bottom right,
      let side : List (Point K) := [⟨b.segment.x₀, top⟩, ⟨b.segment.x₀, bottom⟩]
      LineBody a.body first p ∧ p.x = b.segment.x₀ ∧ BoxBody b.body side right ∧
        StrokedSide b.body side
  /-- A box ends with its vertical side drawn where the line after it starts. -/
  hardClosing : a.IsBox → b.IsLine → HardEdge a.segment b.segment →
    a.joint = [] ∧ ∃ left top bottom p last,
      let side : List (Point K) := [⟨b.segment.x₀, top⟩, ⟨b.segment.x₀, bottom⟩]
      BoxBody a.body left side ∧ StrokedSide a.body side ∧ LineBody b.body p last ∧
        p.x = b.segment.x₀
  /-- Two boxes share a vertical side, or two diagonals join their corners. -/
  boxes : a.IsBox → b.IsBox → ∃ left inner outer right,
    BoxBody a.body left inner ∧ BoxBody b.body outer right ∧
      ((a.joint = [] ∧ inner = outer ∧
          ∃ top bottom, inner = [⟨b.segment.x₀, top⟩, ⟨b.segment.x₀, bottom⟩]) ∨
        ∃ down up, a.joint = [down, up] ∧
          down.points.head? = inner.head? ∧ down.points.getLast? = outer.getLast? ∧
          up.points.head? = inner.getLast? ∧ up.points.getLast? = outer.head?)

end Stroke

/-- The strokes of a placed signal are drawn after its name and without a break between them, and
its breaks over them. -/
structure PlacedSignal.Traced [BEq K] (s : PlacedSignal K) (name : Primitive K)
    (strokes : List (Stroke K)) (breaks : List (Primitive K)) : Prop where
  name_role : name.role = .signalName
  name_text : name.text = some s.name
  segments : strokes.map Stroke.segment = s.segments
  sorted : ∀ stroke ∈ strokes, stroke.Sorted
  connected : strokes.IsChain Stroke.Connected
  /-- Nothing is drawn between the last stroke and the end of the signal. -/
  last : ∀ stroke ∈ strokes.getLast?, stroke.joint = []
  breaks : ∀ p ∈ breaks, p.role = .gap

namespace Lane

variable [Add K] [Mul K] [Scalar K] {l : Lane K} {p : PlacedSegment K}

theorem turns_snd (l : Lane K) (first : PlacedPulse K) (rest : List (PlacedPulse K)) :
    (first :: rest).getLast?.map PlacedPulse.level = some (l.turns first.level rest).2 := by
  induction rest generalizing first with
  | nil => rfl
  | cons next rest ih =>
      rw [List.getLast?_cons_cons, ih]
      rfl

theorem exitY_of_isBox (l : Lane K) (h : p.segment.isBox = true) : l.exitY p = none := by
  cases hKind : p.segment.kind <;> simp_all [exitY, Segment.isBox]

theorem entryY_of_isBox (l : Lane K) (h : p.segment.isBox = true) : l.entryY p = none := by
  cases hKind : p.segment.kind <;> simp_all [entryY, Segment.isBox]

theorem exitY_of_isLine (l : Lane K) (hDrawable : p.Drawable) (h : p.segment.isBox = false) :
    ∃ y, l.exitY p = some y := by
  rcases Segment.kind_of_isBox_eq_false h with hKind | hKind
  · obtain ⟨level, hLevel⟩ := Option.ne_none_iff_exists'.mp (hDrawable.level hKind)
    exact ⟨l.levelY level, by simp only [exitY, hKind, hLevel, Option.map_some]⟩
  · obtain ⟨pulse, hPulse⟩ := Option.ne_none_iff_exists'.mp
      (mt List.getLast?_eq_none_iff.mp (hDrawable.turns hKind))
    exact ⟨l.levelY pulse.level, by simp only [exitY, hKind, hPulse, Option.map_some]⟩

theorem entryY_of_isLine (l : Lane K) (hDrawable : p.Drawable) (h : p.segment.isBox = false) :
    ∃ y, l.entryY p = some y := by
  rcases Segment.kind_of_isBox_eq_false h with hKind | hKind
  · obtain ⟨level, hLevel⟩ := Option.ne_none_iff_exists'.mp (hDrawable.level hKind)
    exact ⟨l.levelY level, by simp only [entryY, hKind, hLevel, Option.map_some]⟩
  · obtain ⟨pulse, hPulse⟩ := Option.ne_none_iff_exists'.mp
      (mt List.head?_eq_none_iff.mp (hDrawable.turns hKind))
    exact ⟨l.levelY pulse.level, by simp only [entryY, hKind, hPulse, Option.map_some]⟩

theorem head?_clockPoints {y : K} (hKind : p.segment.kind = .clock) (h : l.entryY p = some y) :
    (l.clockPoints p).head? = some ⟨p.x₀, y⟩ := by
  simp only [entryY, hKind] at h
  rw [clockPoints]
  cases hPulses : p.pulses with
  | nil => simp [hPulses] at h
  | cons first rest =>
      rw [hPulses] at h
      cases h
      rfl

theorem getLast?_clockPoints {y : K} (hKind : p.segment.kind = .clock) (h : l.exitY p = some y) :
    (l.clockPoints p).getLast? = some ⟨p.x₁, y⟩ := by
  simp only [exitY, hKind] at h
  rw [clockPoints]
  cases hPulses : p.pulses with
  | nil => simp [hPulses] at h
  | cons first rest =>
      have hLast := congrArg (Option.map l.levelY) (l.turns_snd first rest)
      rw [hPulses] at h
      rw [Option.map_map, Function.comp_def, h] at hLast
      simp only
      rw [List.getLast?_concat, Option.some.inj hLast]

variable [Sub K] [Div K] [BEq K] {s a b : Stroke K}

/-- A line starts and ends at its heights, where its stroke does; a clock does so at the borders of
its segment. -/
theorem Draws.line (h : l.Draws s) (hLine : s.IsLine) (hDrawable : s.segment.Drawable) :
    ∃ left right ya yb, l.entryY s.segment = some ya ∧ l.exitY s.segment = some yb ∧
      LineBody s.body ⟨left, ya⟩ ⟨right, yb⟩ ∧
      (left = s.start.x ∧ right = s.stop.x ∨
        s.segment.segment.kind = .clock ∧ left = s.segment.x₀ ∧ right = s.segment.x₁) := by
  obtain ⟨ya, hEntry⟩ := l.entryY_of_isLine hDrawable hLine
  obtain ⟨yb, hExit⟩ := l.exitY_of_isLine hDrawable hLine
  rcases h.body_cases with ⟨hKind, hBody⟩ | ⟨hKind, hBody⟩ | ⟨hBox, _⟩
  · have hFlat : l.exitY s.segment = l.entryY s.segment := by simp only [exitY, entryY, hKind]
    obtain rfl : ya = yb := by
      rw [hExit, hEntry] at hFlat
      exact (Option.some.inj hFlat).symm
    rw [hEntry] at hBody
    exact ⟨_, _, ya, ya, hEntry, hExit, ⟨_, hBody, .inl rfl, rfl, rfl⟩, .inl ⟨rfl, rfl⟩⟩
  · exact ⟨_, _, ya, yb, hEntry, hExit, ⟨_, hBody, .inr rfl, head?_clockPoints hKind hEntry,
      getLast?_clockPoints hKind hExit⟩, .inr ⟨hKind, rfl, rfl⟩⟩
  · simp [Stroke.IsLine, hBox] at hLine

/-- A box is drawn between the outlines of its ends. -/
theorem Draws.box (h : l.Draws s) (hBox : s.IsBox) (hStart : l.Reaches s.start)
    (hStop : l.Reaches s.stop) : BoxBody s.body s.start.outline s.stop.outline := by
  obtain ⟨fill, labels, hOutline, _⟩ := of_body_box hBox h.body
  refine ⟨_, _, _, _, hOutline, rfl, rfl, rfl, hStart.upper.symm, hStop.upper.symm, rfl,
    hStart.lower.symm, hStop.lower.symm⟩

theorem Draws.strokedSide (h : l.Draws s) (hBox : s.IsBox) {e : BodyEnd K}
    (hEnd : e ∈ [s.start, s.stop]) (hStroked : e.stroked = true) :
    StrokedSide s.body e.outline := by
  obtain ⟨fill, labels, hOutline, _⟩ := of_body_box hBox h.body
  have hMem : e ∈ [s.start, s.stop].filter BodyEnd.stroked := List.mem_filter.mpr ⟨hEnd, hStroked⟩
  refine ⟨.line e.outline l.styles.line .box, ?_, rfl, rfl⟩
  rw [hOutline]
  exact List.mem_append_left _ (List.mem_append_right _ (List.mem_map_of_mem hMem))

omit [Mul K] [Div K] [BEq K] [Scalar K] in
theorem points_slope (l : Lane K) (a b : PlacedSegment K) (x ya yb : K) :
    (l.slope a b x ya yb).points.head? = some ⟨x - l.reach, ya⟩ ∧
      (l.slope a b x ya yb).points.getLast? = some ⟨x + l.reach, yb⟩ := by
  rw [slope]
  split_ifs <;> exact ⟨rfl, rfl⟩

/-- Two strokes of adjacent segments, as a waveform has them. -/
structure Adjacent (l : Lane K) (a b : Stroke K) : Prop where
  draws : l.Draws a ∧ l.Draws b
  drawable : a.segment.Drawable ∧ b.segment.Drawable
  reaches : (l.Reaches a.start ∧ l.Reaches a.stop) ∧ (l.Reaches b.start ∧ l.Reaches b.stop)
  border : a.segment.x₁ = b.segment.x₀
  meets : l.Meets a b

omit [Div K] in
theorem Meets.of_joint {j : Joint K} (h : l.Meets a b) (hJoint : l.joint a.segment b.segment = j) :
    a.stop = j.stop ∧ b.start = j.start ∧ a.joint = j.strokes :=
  hJoint ▸ ⟨h.stop, h.start, h.joint⟩

namespace Adjacent

/-- A line ends at its height; a clock has vertical edges, so that it ends at the border. -/
theorem exists_stop (h : l.Adjacent a b) (hLine : a.IsLine) :
    ∃ y first, l.exitY a.segment = some y ∧ LineBody a.body first ⟨a.stop.x, y⟩ := by
  obtain ⟨left, right, ya, yb, _, hExit, hBody, hEnds⟩ := h.draws.1.line hLine h.drawable.1
  obtain rfl : right = a.stop.x := by
    rcases hEnds with ⟨_, hStop⟩ | ⟨hKind, _, hStop⟩
    · exact hStop
    · rw [hStop, h.meets.stop, joint_of_hardEdge (.inl (h.drawable.1.sharp hKind)), h.border]
      rfl
  exact ⟨yb, _, hExit, hBody⟩

/-- A line starts at its height; a clock has vertical edges, so that it starts at the border. -/
theorem exists_start (h : l.Adjacent a b) (hLine : b.IsLine) :
    ∃ y last, l.entryY b.segment = some y ∧ LineBody b.body ⟨b.start.x, y⟩ last := by
  obtain ⟨left, right, ya, yb, hEntry, _, hBody, hEnds⟩ := h.draws.2.line hLine h.drawable.2
  obtain rfl : left = b.start.x := by
    rcases hEnds with ⟨hStart, _⟩ | ⟨hKind, hStart, _⟩
    · exact hStart
    · rw [hStart, h.meets.start, joint_of_hardEdge (.inr (h.drawable.2.sharp hKind))]
      rfl
  exact ⟨ya, _, hEntry, hBody⟩

theorem firstBox (h : l.Adjacent a b) (hBox : a.IsBox) :
    BoxBody a.body a.start.outline a.stop.outline :=
  h.draws.1.box hBox h.reaches.1.1 h.reaches.1.2

theorem secondBox (h : l.Adjacent a b) (hBox : b.IsBox) :
    BoxBody b.body b.start.outline b.stop.outline :=
  h.draws.2.box hBox h.reaches.2.1 h.reaches.2.2

theorem connected (h : l.Adjacent a b) : a.Connected b where
  border := h.border
  lines hA hB := by
    obtain ⟨ya, first, hExit, hFirst⟩ := h.exists_stop hA
    obtain ⟨yb, last, hEntry, hLast⟩ := h.exists_start hB
    refine ⟨first, _, _, last, hFirst, hLast, ?_⟩
    rw [h.meets.stop, h.meets.start, h.meets.joint]
    by_cases hEdge : HardEdge a.segment b.segment
    · rw [joint_of_hardEdge hEdge, hExit, hEntry, step]
      split_ifs with hSame
      · exact .inl ⟨rfl, hSame, rfl⟩
      · exact .inr ⟨_, rfl, rfl, rfl⟩
    · rw [joint_of_lines hEdge hExit hEntry]
      split_ifs with hSame
      · exact .inl ⟨rfl, hSame, rfl⟩
      · exact .inr ⟨_, rfl, l.points_slope _ _ _ _ _⟩
  opening hA hB hEdge := by
    obtain ⟨ya, first, hExit, hFirst⟩ := h.exists_stop hA
    have hBox := h.secondBox hB
    obtain ⟨hStop, hStart, hJoint⟩ :=
      h.meets.of_joint (joint_of_opening hEdge hExit (l.entryY_of_isBox hB))
    rw [hStop] at hFirst
    rw [hStart] at hBox
    exact ⟨first, _, _, _, _, _, hFirst, hBox, hJoint, rfl⟩
  closing hA hB hEdge := by
    obtain ⟨yb, last, hEntry, hLast⟩ := h.exists_start hB
    have hBox := h.firstBox hA
    obtain ⟨hStop, hStart, hJoint⟩ :=
      h.meets.of_joint (joint_of_closing hEdge (l.exitY_of_isBox hA) hEntry)
    rw [hStop] at hBox
    rw [hStart] at hLast
    exact ⟨_, _, _, _, last, _, hBox, hLast, hJoint, rfl⟩
  hardOpening hA hB hEdge := by
    obtain ⟨ya, first, hExit, hFirst⟩ := h.exists_stop hA
    have hBox := h.secondBox hB
    obtain ⟨hStop, hStart, hJoint⟩ := h.meets.of_joint (joint_of_hardEdge hEdge)
    rw [hExit, l.entryY_of_isBox hB] at hStart hJoint
    have hSide := h.draws.2.strokedSide hB (e := b.start) (by simp) (by rw [hStart]; rfl)
    rw [hStart] at hBox hSide
    refine ⟨hJoint, first, _, _, _, _, hFirst, ?_, hBox, hSide⟩
    rw [hStop]
    rfl
  hardClosing hA hB hEdge := by
    obtain ⟨yb, last, hEntry, hLast⟩ := h.exists_start hB
    have hBox := h.firstBox hA
    obtain ⟨hStop, hStart, hJoint⟩ := h.meets.of_joint (joint_of_hardEdge hEdge)
    rw [hEntry, l.exitY_of_isBox hA] at hStop hJoint
    have hSide := h.draws.1.strokedSide hA (e := a.stop) (by simp) (by rw [hStop]; rfl)
    rw [hStop] at hBox hSide
    refine ⟨hJoint, _, _, _, _, last, hBox, hSide, hLast, ?_⟩
    rw [hStart]
    rfl
  boxes hA hB := by
    have hFirst := h.firstBox hA
    have hSecond := h.secondBox hB
    -- Boxes have no vertical edges.
    have hEdge : ¬ HardEdge a.segment b.segment := by
      rintro (hSharp | hSharp)
      · simp [h.drawable.1.smooth hA] at hSharp
      · simp [h.drawable.2.smooth hB] at hSharp
    obtain ⟨hStop, hStart, hJoint⟩ :=
      h.meets.of_joint (joint_of_boxes hEdge (l.exitY_of_isBox hA) (l.entryY_of_isBox hB))
    rw [hStop] at hFirst
    rw [hStart] at hSecond
    refine ⟨_, _, _, _, hFirst, hSecond, ?_⟩
    rw [hJoint]
    split_ifs
    · exact .inl ⟨rfl, rfl, _, _, rfl⟩
    · exact .inr ⟨_, _, rfl, rfl, rfl, rfl, rfl⟩

end Adjacent

section Traces

variable {start : BodyEnd K} {segments : List (PlacedSegment K)} {strokes : List (Stroke K)}

theorem Traces.borders (h : l.Traces start segments strokes)
    (hBorder : segments.IsChain fun a b => a.x₁ = b.x₀) :
    strokes.IsChain fun a b => l.Meets a b ∧ a.segment.x₁ = b.segment.x₀ := by
  rw [← h.segments, List.isChain_map] at hBorder
  exact List.isChain_iff_getElem.mpr fun i hi => ⟨h.meets.getElem i hi, hBorder.getElem i hi⟩

/-- The strokes of a waveform are drawn without a break between them. -/
theorem Traces.connected (h : l.Traces start segments strokes) (hStart : l.Reaches start)
    (hDrawable : ∀ p ∈ segments, p.Drawable)
    (hBorder : segments.IsChain fun a b => a.x₁ = b.x₀) :
    strokes.IsChain Stroke.Connected := by
  have hAll (s : Stroke K) (hs : s ∈ strokes) : s.segment.Drawable :=
    hDrawable _ (h.segments ▸ List.mem_map_of_mem hs)
  refine (h.borders hBorder).imp_of_mem_imp fun a b ha hb ⟨hMeets, hSame⟩ =>
    Adjacent.connected (l := l) ?_
  exact ⟨⟨h.draws a ha, h.draws b hb⟩, ⟨hAll a ha, hAll b hb⟩,
    ⟨h.reaches hStart a ha, h.reaches hStart b hb⟩, hSame, hMeets⟩

end Traces

omit [Mul K] [Div K] [BEq K] in
theorem role_gapMark (l : Lane K) (x : K) : ∀ q ∈ l.gapMark x, q.role = .gap := by
  intro q hq
  simp only [gapMark, List.mem_cons, List.not_mem_nil, or_false] at hq
  rcases hq with rfl | rfl | rfl <;> rfl

end Lane

variable [Add K] [Sub K] [Mul K] [Div K] [BEq K] [Scalar K]

/-- The strokes of a placed signal stand together in a figure, between its name and its breaks. -/
def Diagram.Shows (g : Diagram K) (s : PlacedSignal K) (strokes : List (Stroke K)) : Prop :=
  ∃ before name breaks after,
    g.primitives = before ++ name :: (strokes.flatMap Stroke.drawn ++ breaks) ++ after ∧
      s.Traced name strokes breaks

/-- The strokes of a placed signal, as its lane has them. -/
structure Lane.Carries (lane : Lane K) (s : PlacedSignal K) (strokes : List (Stroke K)) : Prop where
  traces : ∃ start, lane.Traces start s.segments strokes
  marked : lane.Marked none strokes

/-- The primitives of a signal whose segments are placed one at the end of the other, with the lane
that they are drawn in. -/
theorem Figure.carries_of_emit {l : Layout K} {edges : List (EdgeResult K)} {o : Options K}
    {drawn : List (Primitive K)} (h : emit l edges o = .ok drawn) {s : PlacedSignal K}
    (hs : s ∈ l.signals) (hDrawable : ∀ p ∈ s.segments, p.Drawable)
    (hBorder : s.segments.IsChain fun a b => a.x₁ = b.x₀) :
    ∃ styles lane strokes, Styles.ofOptions o = .ok styles ∧ Lane.ofSignal styles s = .ok lane ∧
      lane.Carries s strokes ∧ ∃ before name breaks after,
        drawn = before ++ name :: (strokes.flatMap Stroke.drawn ++ breaks) ++ after ∧
          s.Traced name strokes breaks := by
  obtain ⟨styles, before, name, wave, after, hStyles, rfl, hRole, hText, hWave⟩ := signal_of_emit h hs
  obtain ⟨lane, start, strokes, hLane, hTraces, hMarked, hStart, _, rfl⟩ := Lane.of_waveform hWave
  refine ⟨styles, lane, strokes, hStyles, hLane, ⟨⟨start, hTraces⟩, hMarked⟩, before, name, _, after,
    rfl, hRole, hText, hTraces.segments, hTraces.sorted, hTraces.connected hStart hDrawable hBorder,
    fun stroke hLast => (hTraces.last stroke hLast).2, ?_⟩
  intro p hp
  obtain ⟨x, _, hp⟩ := List.mem_flatMap.mp hp
  exact lane.role_gapMark x p hp

theorem Figure.traced_of_emit {l : Layout K} {edges : List (EdgeResult K)} {o : Options K}
    {drawn : List (Primitive K)} (h : emit l edges o = .ok drawn) {s : PlacedSignal K}
    (hs : s ∈ l.signals) (hDrawable : ∀ p ∈ s.segments, p.Drawable)
    (hBorder : s.segments.IsChain fun a b => a.x₁ = b.x₀) :
    ∃ before name strokes breaks after,
      drawn = before ++ name :: (strokes.flatMap Stroke.drawn ++ breaks) ++ after ∧
        s.Traced name strokes breaks := by
  obtain ⟨_, _, strokes, _, _, _, before, name, breaks, after, hDrawn⟩ :=
    carries_of_emit h hs hDrawable hBorder
  exact ⟨before, name, strokes, breaks, after, hDrawn⟩

namespace Description

variable [LT K] [LE K] [DecidableLT K] [DecidableLE K] [Max K] [Min K]

/-- The signals of a document are laid out in their order, each with the segments that it is
compiled to, and each is drawn without a break between its strokes. -/
theorem render_draws_connected {description : Description K} {options : Option (Options K)}
    {g : Diagram K} (hParsed : ∀ document, description = .parsed document →
      ∀ s ∈ document.signals, 1 ≤ s.period)
    (h : (description.render options).outcome = .ok g) :
    ∃ d l, (description.load options).outcome = .ok d ∧ g.layout = some l ∧
      List.Forall₂ (fun s placed => placed.name = s.name ∧ ∃ c, s.compile.outcome = .ok c ∧
        placed.segments.map PlacedSegment.segment = c.segments) d.signals l.signals ∧
      ∀ s ∈ l.signals, ∃ before name strokes breaks after,
        g.primitives = before ++ name :: (strokes.flatMap Stroke.drawn ++ breaks) ++ after ∧
          s.Traced name strokes breaks := by
  rw [render, Logged.outcome_bind] at h
  obtain ⟨d, hLoad, h⟩ := bind_eq_ok_iff.mp h
  have hPeriods := periods_of_load hParsed hLoad
  obtain ⟨items, l, edges, hItems, hLayout, _, hDrawn, hg⟩ := Document.of_render h
  obtain ⟨frame, _, hSets⟩ := Layout.sets_of_compute hPeriods hItems hLayout
  refine ⟨d, l, hLoad, by rw [hg], hSets.imp ?_, fun placed hPlaced => ?_⟩
  · rintro s placed ⟨c, _, ⟨rfl, hOwn⟩, slot, depth, top, anchors, hPlaced⟩
    have hShown := Frame.of_placeSignal hPlaced
    exact ⟨hShown.name, c, hOwn.compiles, hShown.segments⟩
  · obtain ⟨s, hs, c, _, ⟨_, hOwn⟩, hPlaces⟩ := exists_of_mem_forall₂ hSets hPlaced
    obtain ⟨hDrawable, hBorder⟩ := hPlaces.segments hOwn
    exact Figure.traced_of_emit hDrawn hPlaced hDrawable hBorder

/-- Both lanes step once between two levels. -/
theorem render_draws_connected_handshake :
    ∃ g l, ((parsed (handshake "b")).render none).outcome = .ok g ∧ g.layout = some l ∧
      l.signals.length = 2 ∧ ∀ s ∈ l.signals, ∃ name strokes breaks,
        (name :: (strokes.flatMap Stroke.drawn ++ breaks)).Sublist g.primitives ∧
          s.Traced name strokes breaks := by
  have hValid : (handshake "b").Valid := handshake_promised "b" _ rfl
  obtain ⟨g, hg⟩ : Succeeds ((parsed (handshake "b")).render none).outcome :=
    Document.render_of_sound hValid (handshake_sound (by decide) (by decide))
  obtain ⟨d, l, hLoad, hLayout, hSignals, hTraced⟩ :=
    render_draws_connected hValid.promised.periods hg
  obtain rfl : handshake "b" = d := Except.ok.inj hLoad
  refine ⟨g, l, hg, hLayout, ?_, fun s hs => ?_⟩
  · rw [← hSignals.length_eq, signals_handshake]
    rfl
  · obtain ⟨before, name, strokes, breaks, after, hDrawn, hOwn⟩ := hTraced s hs
    refine ⟨name, strokes, breaks, ?_, hOwn⟩
    rw [hDrawn]
    exact (List.sublist_append_right _ _).trans (List.sublist_append_left _ _)

end Description
end TimingDiagram
