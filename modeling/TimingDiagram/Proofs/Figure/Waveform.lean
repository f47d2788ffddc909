import Mathlib.Data.List.Chain
import TimingDiagram.Figure.Waveform
import TimingDiagram.Proofs.Layout.Block

/-! The strokes of a waveform, in any arithmetic. Each segment has one: its body between two ends,
its marks, and the joint with the segment after it. Strokes that follow one another end and start
as their joint says. -/
namespace TimingDiagram

/-- What is drawn of a segment between its two ends. -/
structure Stroke (K : Type) where
  segment : PlacedSegment K
  start : BodyEnd K
  stop : BodyEnd K
  body : List (Primitive K)
  markers : List (Primitive K)
  /-- The joint with the segment after it. -/
  joint : List (Primitive K)

/-- The primitives of a stroke in drawing order. -/
def Stroke.drawn {K : Type} (s : Stroke K) : List (Primitive K) := s.body ++ s.markers ++ s.joint

/-- The parts of a stroke depict what they should. -/
structure Stroke.Sorted {K : Type} (s : Stroke K) : Prop where
  body : ∀ p ∈ s.body, p.role ∈ [Role.level, .clock, .fill, .box, .label]
  markers : ∀ p ∈ s.markers, p.role = .marker
  joint : ∀ p ∈ s.joint, p.role = .transition

section Chains

variable {α : Type} {r : α → α → Prop} {xs : List α} {x : α}

theorem rel_next_of_isChain (h : xs.IsChain r) (hx : x ∈ xs) :
    (∃ y ∈ xs, r x y) ∨ x ∈ xs.getLast? := by
  obtain ⟨before, after, rfl⟩ := List.append_of_mem hx
  cases after with
  | nil => exact .inr (by simp)
  | cons y after =>
      have hNext := List.isChain_cons_cons.mp h.right_of_append
      exact .inl ⟨y, by simp, hNext.1⟩

theorem rel_previous_of_isChain (h : xs.IsChain r) (hx : x ∈ xs) :
    (∃ y ∈ xs, r y x) ∨ x ∈ xs.head? := by
  obtain ⟨before, after, rfl⟩ := List.append_of_mem hx
  rcases List.eq_nil_or_concat before with rfl | ⟨before, y, rfl⟩
  · exact .inr rfl
  · rw [List.concat_eq_append, List.append_assoc] at h
    have hNext := List.isChain_cons_cons.mp h.right_of_append
    exact .inl ⟨y, by simp, hNext.1⟩

end Chains

/-- Whether one of two adjacent segments has vertical edges. -/
def HardEdge {K : Type} (a b : PlacedSegment K) : Prop :=
  a.segment.isSharp = true ∨ b.segment.isSharp = true

/-- A text, if there is something to show. -/
def shownText (text : Option String) : Option String := text.filter fun s => !s.isEmpty

/-- The label that is drawn in a segment: only a filled box has one. -/
def Segment.shownLabel (s : Segment) : Option String :=
  if s.kind = .data then shownText s.label else none

theorem Segment.kind_of_isBox_eq_false {s : Segment} (h : s.isBox = false) :
    s.kind = .level ∨ s.kind = .clock := by
  cases hKind : s.kind <;> simp_all [isBox]

namespace Lane

variable {K : Type} [Add K] [Sub K] [Mul K] [Div K] [BEq K] [Scalar K] {l : Lane K}
  {p : PlacedSegment K} {start stop : BodyEnd K} {drawn : List (Primitive K)}

/-- A body end reaches from the top of the lane to its bottom. -/
structure Reaches (l : Lane K) (e : BodyEnd K) : Prop where
  upper : e.outline.head? = some ⟨e.x, l.top⟩
  lower : e.outline.getLast? = some ⟨e.x, l.bottom⟩

omit [Add K] [Sub K] [Mul K] [Div K] [BEq K] [Scalar K] in
theorem reaches_upright (l : Lane K) (x : K) (stroked : Bool) : l.Reaches (l.upright x stroked) :=
  ⟨rfl, rfl⟩

omit [Add K] [Sub K] [Mul K] [Div K] [BEq K] [Scalar K] in
theorem reaches_pointed (l : Lane K) (x tipX tipY : K) : l.Reaches (l.pointed x tipX tipY) :=
  ⟨rfl, rfl⟩

/-- A stroke is that of its segment. -/
structure Draws (l : Lane K) (s : Stroke K) : Prop where
  body : l.body s.segment s.start s.stop = .ok s.body
  markers : ∃ previous, s.markers = l.markers s.segment previous

/-- Two strokes meet as their segments do. -/
structure Meets (l : Lane K) (a b : Stroke K) : Prop where
  stop : a.stop = (l.joint a.segment b.segment).stop
  start : b.start = (l.joint a.segment b.segment).start
  joint : a.joint = (l.joint a.segment b.segment).strokes

/-- The strokes of some adjacent segments, of which the first starts and the last ends where the
signal does. -/
structure Traces (l : Lane K) (start : BodyEnd K) (segments : List (PlacedSegment K))
    (strokes : List (Stroke K)) : Prop where
  segments : strokes.map Stroke.segment = segments
  draws : ∀ s ∈ strokes, l.Draws s
  meets : strokes.IsChain l.Meets
  first : ∀ s ∈ strokes.head?, s.start = start
  last : ∀ s ∈ strokes.getLast?, s.stop = l.openEnd s.segment s.segment.x₁ ∧ s.joint = []

theorem traces_nil (l : Lane K) (start : BodyEnd K) : l.Traces start [] [] :=
  ⟨rfl, by simp, .nil, by simp, by simp⟩

/-- The marks of some strokes are those of their segments, each after the one before it. -/
def Marked (l : Lane K) (previous : Option (PlacedSegment K)) (strokes : List (Stroke K)) : Prop :=
  ∀ before s after, strokes = before ++ s :: after →
    s.markers = l.markers s.segment ((before.getLast?.map Stroke.segment).or previous)

omit [Div K] in
theorem marked_nil (l : Lane K) (previous : Option (PlacedSegment K)) : l.Marked previous [] :=
  fun _ _ _ hSplit => absurd hSplit.symm (by simp)

omit [Div K] in
theorem marked_cons {previous : Option (PlacedSegment K)} {s : Stroke K} {strokes : List (Stroke K)}
    (hOwn : s.markers = l.markers s.segment previous) (h : l.Marked (some s.segment) strokes) :
    l.Marked previous (s :: strokes) := by
  intro before t after hSplit
  cases before with
  | nil =>
      cases hSplit
      exact hOwn
  | cons first before =>
      obtain ⟨rfl, hRest⟩ := List.cons.inj hSplit
      rw [h before t after hRest, List.getLast?_cons]
      cases before.getLast? <;> rfl

theorem traces_of_bodies {segments : List (PlacedSegment K)} {previous : Option (PlacedSegment K)}
    (h : l.bodies previous start segments = .ok drawn) :
    ∃ strokes, l.Traces start segments strokes ∧ l.Marked previous strokes ∧
      drawn = strokes.flatMap Stroke.drawn := by
  induction segments generalizing previous start drawn with
  | nil =>
      cases h
      exact ⟨[], l.traces_nil start, l.marked_nil previous, rfl⟩
  | cons p rest ih =>
      cases rest with
      | nil =>
          rw [bodies] at h
          obtain ⟨body, hBody, h⟩ := bind_eq_ok_iff.mp h
          cases h
          let stroke : Stroke K :=
            ⟨p, start, l.openEnd p p.x₁, body, l.markers p previous, []⟩
          have hDraws : l.Draws stroke := ⟨hBody, previous, rfl⟩
          refine ⟨[stroke], ⟨rfl, by simpa using hDraws, .singleton _, ?_, ?_⟩,
            marked_cons rfl (l.marked_nil _), ?_⟩
          · rintro _ ⟨⟩
            rfl
          · rintro _ ⟨⟩
            exact ⟨rfl, rfl⟩
          · simp [Stroke.drawn, stroke]
      | cons q rest =>
          rw [bodies] at h
          obtain ⟨body, hBody, h⟩ := bind_eq_ok_iff.mp h
          obtain ⟨others, hOthers, h⟩ := bind_eq_ok_iff.mp h
          cases h
          obtain ⟨strokes, hTraces, hMarked, rfl⟩ := ih hOthers
          let stroke : Stroke K :=
            ⟨p, start, (l.joint p q).stop, body, l.markers p previous, (l.joint p q).strokes⟩
          have hDraws : l.Draws stroke := ⟨hBody, previous, rfl⟩
          -- The later strokes are not empty, and open with the segment of the joint.
          cases strokes with
          | nil => cases hTraces.segments
          | cons next strokes =>
              have hNext : next.segment = q := (List.cons.inj hTraces.segments).1
              have hStart : next.start = (l.joint p q).start := hTraces.first next rfl
              have hMeets : l.Meets stroke next := by
                subst hNext
                exact ⟨rfl, hStart, rfl⟩
              refine ⟨stroke :: next :: strokes, ⟨?_, ?_, ?_, ?_, ?_⟩, marked_cons rfl hMarked, ?_⟩
              · rw [List.map_cons, hTraces.segments]
              · exact List.forall_mem_cons.mpr ⟨hDraws, hTraces.draws⟩
              · exact List.isChain_cons_cons.mpr ⟨hMeets, hTraces.meets⟩
              · rintro _ ⟨⟩
                rfl
              · simpa using hTraces.last
              · simp [Stroke.drawn, stroke]

omit [Sub K] [Mul K] [BEq K] in
/-- A lane starts at the top of its signal, and has the sizes that the options give. -/
theorem of_ofSignal {styles : Styles K} {s : PlacedSignal K} (h : ofSignal styles s = .ok l) :
    l.top = s.y ∧ l.height = styles.options.waveHeight ∧
      l.reach = styles.options.transitionOffset := by
  obtain ⟨_, _, h⟩ := bind_eq_ok_iff.mp h
  obtain ⟨_, _, h⟩ := bind_eq_ok_iff.mp h
  cases h
  exact ⟨rfl, rfl, rfl⟩

/-- A waveform is made of its strokes, with the breaks drawn over them. -/
theorem of_waveform {styles : Styles K} {s : PlacedSignal K}
    (h : waveform styles s = .ok drawn) :
    ∃ l start strokes, ofSignal styles s = .ok l ∧ l.Traces start s.segments strokes ∧
      l.Marked none strokes ∧ l.Reaches start ∧ (∀ p ∈ s.segments.head?, start.x = p.x₀) ∧
      drawn = strokes.flatMap Stroke.drawn ++
        (s.segments.flatMap PlacedSegment.gapMarks).flatMap l.gapMark := by
  rw [waveform] at h
  obtain ⟨l, hLane, h⟩ := bind_eq_ok_iff.mp h
  cases hSegments : s.segments with
  | nil =>
      simp only [hSegments] at h
      cases h
      exact ⟨l, l.upright l.top false, [], hLane, l.traces_nil _, l.marked_nil _,
        l.reaches_upright _ _, by simp, rfl⟩
  | cons first rest =>
      simp only [hSegments] at h
      obtain ⟨_, _, h⟩ := bind_eq_ok_iff.mp h
      obtain ⟨bodies, hBodies, h⟩ := bind_eq_ok_iff.mp h
      cases h
      obtain ⟨strokes, hTraces, hMarked, rfl⟩ := traces_of_bodies hBodies
      refine ⟨l, _, strokes, hLane, hTraces, hMarked, l.reaches_upright _ _, ?_, rfl⟩
      rintro _ ⟨⟩
      rfl

omit [Sub K] [BEq K] in
theorem body_level (hKind : p.segment.kind = .level) :
    l.body p start stop = .ok [.line [⟨start.x, (l.entryY p).getD l.top⟩,
      ⟨stop.x, (l.entryY p).getD l.top⟩] l.styles.line .level] := by
  simp only [body, hKind]

omit [Sub K] [BEq K] in
theorem body_clock (hKind : p.segment.kind = .clock) :
    l.body p start stop = .ok [.line (l.clockPoints p) l.styles.line .clock] := by
  simp only [body, hKind]

omit [Sub K] [Mul K] [BEq K] in
theorem of_boxLabel {seg : Segment} (hKind : seg.kind = .data)
    (h : l.boxLabel seg start stop = .ok drawn) :
    (∀ q ∈ drawn, q.role = .label) ∧
      drawn.map Primitive.text = seg.shownLabel.toList.map some := by
  rw [boxLabel] at h
  rw [Segment.shownLabel, if_pos hKind, shownText]
  cases hLabel : seg.label.filter fun s => !s.isEmpty with
  | none =>
      rw [hLabel] at h
      cases h
      exact ⟨nofun, rfl⟩
  | some text =>
      rw [hLabel] at h
      obtain ⟨style, _, h⟩ := bind_eq_ok_iff.mp h
      cases h
      exact ⟨List.forall_mem_singleton.mpr rfl, rfl⟩

omit [Sub K] [BEq K] in
theorem of_body_box (hBox : p.segment.isBox = true) (h : l.body p start stop = .ok drawn) :
    ∃ fill labels, drawn = l.boxOutline fill start stop ++ labels ∧
      (∀ q ∈ labels, q.role = .label) ∧
      labels.map Primitive.text = p.segment.shownLabel.toList.map some := by
  cases hKind : p.segment.kind with
  | level => simp [Segment.isBox, hKind] at hBox
  | clock => simp [Segment.isBox, hKind] at hBox
  | data =>
      simp only [body, hKind] at h
      obtain ⟨fill, _, h⟩ := bind_eq_ok_iff.mp h
      obtain ⟨labels, hLabels, h⟩ := bind_eq_ok_iff.mp h
      cases h
      exact ⟨fill, labels, rfl, of_boxLabel hKind hLabels⟩
  | gap =>
      simp only [body, hKind] at h
      cases h
      refine ⟨_, [], (List.append_nil _).symm, nofun, ?_⟩
      rw [Segment.shownLabel, hKind, if_neg (by decide)]
      rfl

omit [Add K] [Sub K] [Mul K] [Div K] [BEq K] [Scalar K] in
theorem role_boxOutline (l : Lane K) (fill : Value) (start stop : BodyEnd K) :
    ∀ q ∈ l.boxOutline fill start stop, q.role = .fill ∨ q.role = .box := by
  intro q hq
  rcases List.mem_append.mp hq with hq | hq
  · simp only [List.mem_cons, List.not_mem_nil, or_false] at hq
    rcases hq with rfl | rfl | rfl
    · exact .inl rfl
    · exact .inr rfl
    · exact .inr rfl
  · obtain ⟨_, _, rfl⟩ := List.mem_map.mp hq
    exact .inr rfl

omit [Div K] in
theorem role_markers (l : Lane K) (p : PlacedSegment K) (previous : Option (PlacedSegment K)) :
    ∀ q ∈ l.markers p previous, q.role = .marker := by
  intro q hq
  rw [markers] at hq
  split_ifs at hq
  · cases hq
  · obtain ⟨_, _, rfl⟩ := List.mem_map.mp hq
    rfl
  · cases hq
  · rw [List.mem_singleton.mp hq]
    rfl

section Joints

variable {a b : PlacedSegment K} {ya yb : K}

omit [Div K] in
theorem joint_of_hardEdge (h : HardEdge a b) :
    l.joint a b = ⟨l.upright b.x₀ (l.exitY a).isNone, l.upright b.x₀ (l.entryY b).isNone,
      l.step b.x₀ (l.exitY a) (l.entryY b)⟩ := by
  rw [joint, if_pos (Bool.or_eq_true _ _ ▸ h)]

omit [Div K] in
theorem joint_of_lines (hEdge : ¬ HardEdge a b) (hBefore : l.exitY a = some ya)
    (hAfter : l.entryY b = some yb) :
    l.joint a b = if ya == yb then ⟨l.upright b.x₀ false, l.upright b.x₀ false, []⟩
      else ⟨l.upright (b.x₀ - l.reach) false, l.upright (b.x₀ + l.reach) false,
        [l.slope a b b.x₀ ya yb]⟩ := by
  rw [joint, if_neg (Bool.or_eq_true _ _ ▸ hEdge), hBefore, hAfter]

omit [Div K] in
theorem joint_of_opening (hEdge : ¬ HardEdge a b) (hBefore : l.exitY a = some ya)
    (hAfter : l.entryY b = none) :
    l.joint a b = ⟨l.upright (b.x₀ - l.reach) false,
      l.pointed (b.x₀ + l.reach) (b.x₀ - l.reach) ya,
      [.line (l.pointed (b.x₀ + l.reach) (b.x₀ - l.reach) ya).outline l.styles.line
        .transition]⟩ := by
  rw [joint, if_neg (Bool.or_eq_true _ _ ▸ hEdge), hBefore, hAfter]

omit [Div K] in
theorem joint_of_closing (hEdge : ¬ HardEdge a b) (hBefore : l.exitY a = none)
    (hAfter : l.entryY b = some yb) :
    l.joint a b = ⟨l.pointed (b.x₀ - l.reach) (b.x₀ + l.reach) yb,
      l.upright (b.x₀ + l.reach) false,
      [.line (l.pointed (b.x₀ - l.reach) (b.x₀ + l.reach) yb).outline l.styles.line
        .transition]⟩ := by
  rw [joint, if_neg (Bool.or_eq_true _ _ ▸ hEdge), hBefore, hAfter]

omit [Div K] in
theorem joint_of_boxes (hEdge : ¬ HardEdge a b) (hBefore : l.exitY a = none)
    (hAfter : l.entryY b = none) :
    l.joint a b = if seamless a.segment b.segment then
        ⟨l.upright b.x₀ false, l.upright b.x₀ false, []⟩
      else ⟨l.pointed (b.x₀ - l.reach) b.x₀ l.middle, l.pointed (b.x₀ + l.reach) b.x₀ l.middle,
        l.cross b.x₀⟩ := by
  rw [joint, if_neg (Bool.or_eq_true _ _ ▸ hEdge), hBefore, hAfter]

end Joints

/-- The ends of a joint lie on the border of the two segments, or to its sides, and nothing but
transitions is drawn between them. -/
structure Fits (l : Lane K) (x : K) (j : Joint K) : Prop where
  stop : l.Reaches j.stop
  start : l.Reaches j.start
  stop_x : j.stop.x = x ∨ j.stop.x = x - l.reach
  start_x : j.start.x = x ∨ j.start.x = x + l.reach
  role : ∀ q ∈ j.strokes, q.role = .transition

omit [Add K] [Sub K] [Mul K] [Div K] [Scalar K] in
theorem role_step (l : Lane K) (x : K) (before after : Option K) :
    ∀ q ∈ l.step x before after, q.role = .transition := by
  intro q hq
  cases before with
  | none => cases hq
  | some ya =>
      cases after with
      | none => cases hq
      | some yb =>
          rw [step] at hq
          split_ifs at hq
          · cases hq
          · rw [List.mem_singleton.mp hq]
            rfl

omit [Mul K] [Div K] [BEq K] [Scalar K] in
theorem role_slope (l : Lane K) (a b : PlacedSegment K) (x ya yb : K) :
    (l.slope a b x ya yb).role = .transition := by
  rw [slope]
  split_ifs <;> rfl

omit [Div K] in
theorem fits_joint (l : Lane K) (a b : PlacedSegment K) : l.Fits b.x₀ (l.joint a b) := by
  have hFlat : l.Fits b.x₀ ⟨l.upright b.x₀ false, l.upright b.x₀ false, []⟩ :=
    ⟨l.reaches_upright _ _, l.reaches_upright _ _, .inl rfl, .inl rfl, nofun⟩
  by_cases hEdge : HardEdge a b
  · rw [joint_of_hardEdge hEdge]
    exact ⟨l.reaches_upright _ _, l.reaches_upright _ _, .inl rfl, .inl rfl, l.role_step _ _ _⟩
  · cases hBefore : l.exitY a with
    | some ya =>
        cases hAfter : l.entryY b with
        | some yb =>
            rw [joint_of_lines hEdge hBefore hAfter]
            split_ifs
            · exact hFlat
            · exact ⟨l.reaches_upright _ _, l.reaches_upright _ _, .inr rfl, .inr rfl,
                List.forall_mem_singleton.mpr (l.role_slope _ _ _ _ _)⟩
        | none =>
            rw [joint_of_opening hEdge hBefore hAfter]
            exact ⟨l.reaches_upright _ _, l.reaches_pointed _ _ _, .inr rfl, .inr rfl,
              List.forall_mem_singleton.mpr rfl⟩
    | none =>
        cases hAfter : l.entryY b with
        | some yb =>
            rw [joint_of_closing hEdge hBefore hAfter]
            exact ⟨l.reaches_pointed _ _ _, l.reaches_upright _ _, .inr rfl, .inr rfl,
              List.forall_mem_singleton.mpr rfl⟩
        | none =>
            rw [joint_of_boxes hEdge hBefore hAfter]
            split_ifs
            · exact hFlat
            · exact ⟨l.reaches_pointed _ _ _, l.reaches_pointed _ _ _, .inr rfl, .inr rfl,
                List.forall_mem_cons.mpr ⟨rfl, List.forall_mem_singleton.mpr rfl⟩⟩

/-- What the body of a stroke is: one line, or the outline of a box with its label. -/
theorem Draws.body_cases {s : Stroke K} (h : l.Draws s) :
    (s.segment.segment.kind = .level ∧
      s.body = [.line [⟨s.start.x, (l.entryY s.segment).getD l.top⟩,
        ⟨s.stop.x, (l.entryY s.segment).getD l.top⟩] l.styles.line .level]) ∨
    (s.segment.segment.kind = .clock ∧
      s.body = [.line (l.clockPoints s.segment) l.styles.line .clock]) ∨
    (s.segment.segment.isBox = true ∧ ∃ fill labels,
      s.body = l.boxOutline fill s.start s.stop ++ labels ∧ (∀ q ∈ labels, q.role = .label) ∧
      labels.map Primitive.text = s.segment.segment.shownLabel.toList.map some) := by
  have hBody := h.body
  cases hBox : s.segment.segment.isBox with
  | true => exact .inr (.inr ⟨rfl, of_body_box hBox hBody⟩)
  | false =>
      rcases Segment.kind_of_isBox_eq_false hBox with hKind | hKind
      · rw [body_level hKind] at hBody
        exact .inl ⟨hKind, (Except.ok.inj hBody).symm⟩
      · rw [body_clock hKind] at hBody
        exact .inr (.inl ⟨hKind, (Except.ok.inj hBody).symm⟩)

theorem Draws.sorted {s : Stroke K} (h : l.Draws s) (hJoint : ∀ q ∈ s.joint, q.role = .transition) :
    s.Sorted := by
  refine ⟨fun q hq => ?_, ?_, hJoint⟩
  · rcases h.body_cases with ⟨_, hBody⟩ | ⟨_, hBody⟩ | ⟨_, fill, labels, hBody, hLabels, _⟩ <;>
      rw [hBody] at hq
    · simp [List.mem_singleton.mp hq, Primitive.line]
    · simp [List.mem_singleton.mp hq, Primitive.line]
    · rcases List.mem_append.mp hq with hq | hq
      · rcases l.role_boxOutline _ _ _ q hq with hRole | hRole <;> simp [hRole]
      · simp [hLabels q hq]
  · obtain ⟨previous, hMarkers⟩ := h.markers
    exact hMarkers ▸ l.role_markers _ previous

theorem Traces.sorted {segments : List (PlacedSegment K)} {strokes : List (Stroke K)}
    (h : l.Traces start segments strokes) : ∀ s ∈ strokes, s.Sorted := by
  intro s hs
  refine (h.draws s hs).sorted ?_
  rcases rel_next_of_isChain h.meets hs with ⟨next, _, hMeets⟩ | hLast
  · rw [hMeets.joint]
    exact (l.fits_joint _ _).role
  · simp [(h.last s hLast).2]

/-- Both ends of every stroke reach from the top of the lane to its bottom, if the first one
does. -/
theorem Traces.reaches {segments : List (PlacedSegment K)} {strokes : List (Stroke K)}
    (h : l.Traces start segments strokes) (hStart : l.Reaches start) :
    ∀ s ∈ strokes, l.Reaches s.start ∧ l.Reaches s.stop := by
  intro s hs
  constructor
  · rcases rel_previous_of_isChain h.meets hs with ⟨previous, _, hMeets⟩ | hFirst
    · rw [hMeets.start]
      exact (l.fits_joint _ _).start
    · rwa [h.first s hFirst]
  · rcases rel_next_of_isChain h.meets hs with ⟨next, _, hMeets⟩ | hLast
    · rw [hMeets.stop]
      exact (l.fits_joint _ _).stop
    · rw [(h.last s hLast).1]
      exact l.reaches_upright _ _

end Lane
end TimingDiagram
