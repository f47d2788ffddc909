import TimingDiagram.Proofs.Figure.Inventory
import TimingDiagram.Proofs.Layout.Axis

/-! The extent of waveforms in exact arithmetic. A crossing takes no more of a segment than the
segment has room for at each of its ends, so that nothing of a waveform is drawn backwards. -/
namespace TimingDiagram

variable {K : Type}

/-- A primitive does not end to the left of its start. -/
def Primitive.Forward [LE K] (p : Primitive K) : Prop :=
  ∃ first last, p.points.head? = some first ∧ p.points.getLast? = some last ∧ first.x ≤ last.x

/-- The part of a stroke that is no marker and no joint is its body. -/
theorem Stroke.Sorted.mem_body {s : Stroke K} {p : Primitive K} (h : s.Sorted) (hp : p ∈ s.drawn)
    (hMarker : p.role ≠ .marker) (hJoint : p.role ≠ .transition) : p ∈ s.body := by
  rcases List.mem_append.mp hp with hp | hp
  · rcases List.mem_append.mp hp with hp | hp
    · exact hp
    · exact absurd (h.markers p hp) hMarker
  · exact absurd (h.joint p hp) hJoint

section Places

variable [Add K] [Sub K] [Mul K] [Div K] [BEq K] [Scalar K]

namespace Lane

variable {l : Lane K} {start : BodyEnd K} {segments : List (PlacedSegment K)}
  {strokes : List (Stroke K)}

/-- A body ends at a border of its segment, or a crossing away from it. -/
structure Within (l : Lane K) (s : Stroke K) : Prop where
  start : s.start.x = s.segment.x₀ ∨ s.start.x = s.segment.x₀ + l.reach
  stop : s.stop.x = s.segment.x₁ ∨ s.stop.x = s.segment.x₁ - l.reach

theorem Traces.within (h : l.Traces start segments strokes)
    (hStart : ∀ p ∈ segments.head?, start.x = p.x₀)
    (hBorder : segments.IsChain fun a b => a.x₁ = b.x₀) : ∀ s ∈ strokes, l.Within s := by
  intro s hs
  constructor
  · rcases rel_previous_of_isChain h.meets hs with ⟨previous, _, hMeets⟩ | hFirst
    · rw [hMeets.start]
      exact (l.fits_joint _ _).start_x
    · have hHead : s.segment ∈ segments.head? := by
        rw [← h.segments, List.head?_map]
        exact Option.mem_map_of_mem _ hFirst
      rw [h.first s hFirst]
      exact .inl (hStart _ hHead)
  · rcases rel_next_of_isChain (h.borders hBorder) hs with ⟨next, _, hMeets, hSame⟩ | hLast
    · rw [hMeets.stop, hSame]
      exact (l.fits_joint _ _).stop_x
    · rw [(h.last s hLast).1]
      exact .inl rfl

/-- The lines of a body go from one of its ends to the other, or along one of them. -/
theorem Draws.ends {s : Stroke K} {p : Primitive K} (h : l.Draws s) (hStart : l.Reaches s.start)
    (hStop : l.Reaches s.stop) (hp : p ∈ s.body) (hRole : p.role ∈ [Role.level, .box]) :
    ∃ first last, p.points.head? = some first ∧ p.points.getLast? = some last ∧
      (first.x = last.x ∨ first.x = s.start.x ∧ last.x = s.stop.x) := by
  rcases h.body_cases with ⟨_, hBody⟩ | ⟨_, hBody⟩ | ⟨_, fill, labels, hBody, hLabels, _⟩
  · rw [hBody] at hp
    rw [List.mem_singleton.mp hp]
    exact ⟨_, _, rfl, rfl, .inr ⟨rfl, rfl⟩⟩
  · rw [hBody] at hp
    simp [List.mem_singleton.mp hp, Primitive.line] at hRole
  · simp only [hBody, boxOutline, List.mem_append, List.mem_cons, List.not_mem_nil, or_false] at hp
    rcases hp with ((rfl | rfl | rfl) | hp) | hp
    · simp [Primitive.shape] at hRole
    · exact ⟨_, _, rfl, rfl, .inr ⟨rfl, rfl⟩⟩
    · exact ⟨_, _, rfl, rfl, .inr ⟨rfl, rfl⟩⟩
    · -- A side of the box, which goes from top to bottom.
      obtain ⟨e, he, rfl⟩ := List.mem_map.mp hp
      have hReaches : l.Reaches e := by
        have hEnds : e ∈ [s.start, s.stop] := (List.mem_filter.mp he).1
        simp only [List.mem_cons, List.not_mem_nil, or_false] at hEnds
        rcases hEnds with rfl | rfl
        · exact hStart
        · exact hStop
      exact ⟨_, _, hReaches.upper, hReaches.lower, .inl rfl⟩
    · simp [hLabels p hp] at hRole

end Lane

/-- A primitive of a figure that depicts a part of a waveform is in the waveform of a signal. -/
theorem Figure.mem_waveform_of_emit {l : Layout K} {edges : List (EdgeResult K)} {o : Options K}
    {drawn : List (Primitive K)} (h : emit l edges o = .ok drawn) {p : Primitive K} (hp : p ∈ drawn)
    (hRole : p.role ∈ Role.ofWave) :
    ∃ styles, Styles.ofOptions o = .ok styles ∧ ∃ s ∈ l.signals, ∃ wave,
      Lane.waveform styles s = .ok wave ∧ p ∈ wave := by
  have hForeign (roles : List Role) {P : Prop} (hNone : ∀ role ∈ roles, role ∉ Role.ofWave)
      (hOther : p.role ∈ roles) : P := absurd hRole (hNone _ hOther)
  obtain ⟨styles, head, lanes, foot, lines, hStyles, hHead, hLanes, hFoot, hLines, rfl⟩ := of_emit h
  simp only [List.mem_append] at hp
  rcases hp with (((hp | hp) | hp) | hp) | hp
  · obtain ⟨title, ticks, rfl, hAbove⟩ := of_caption hHead
    exact hForeign _ (by decide) (hAbove.role p hp)
  · obtain ⟨part, hPart, hp⟩ := List.mem_flatten.mp hp
    obtain ⟨placed, hPlaced, hDrawn⟩ := exists_of_mem_forall₂ (forall₂_of_mapM hLanes) hPart
    cases placed with
    | group g =>
        obtain ⟨line, texts, rfl, hBracket⟩ := of_bracket hDrawn
        exact hForeign _ (by decide) (hBracket.role p hp)
    | signal s =>
        obtain ⟨name, wave, rfl, hName, _, hWave⟩ := of_signal hDrawn
        have hs : s ∈ l.signals := List.mem_filterMap.mpr ⟨.signal s, hPlaced, rfl⟩
        rcases List.mem_cons.mp hp with rfl | hp
        · exact hForeign [.signalName] (by decide) (by simp [hName])
        · exact ⟨styles, hStyles, s, hs, wave, hWave, hp⟩
  · obtain ⟨title, ticks, rfl, hBelow⟩ := of_caption hFoot
    exact hForeign _ (by decide) (hBelow.role p hp)
  · exact hForeign _ (by decide) (role_resolvedEdge hLines p hp)
  · obtain ⟨result, _, hp⟩ := List.mem_flatMap.mp hp
    exact hForeign [.unresolved] (by decide)
      (by simp [role_unresolvedEdge styles result p hp])

end Places

section Exact

variable [Field K] [LinearOrder K] [IsStrictOrderedRing K]

/-- Two ends that take no more of a segment than it has room for are in their order. -/
theorem Lane.Within.start_le_stop {l : Lane K} {s : Stroke K} (h : l.Within s)
    (hOrder : s.segment.x₀ ≤ s.segment.x₁) (hRoom : s.segment.x₀ + l.reach * 2 ≤ s.segment.x₁) :
    s.start.x ≤ s.stop.x := by
  rcases h.start with hStart | hStart <;> rcases h.stop with hStop | hStop <;>
    rw [hStart, hStop] <;> linarith

variable [Scalar K]

/-- Where every segment of a signal has room for a crossing at both of its ends, no line of it is
drawn backwards. -/
theorem PlacedSignal.forward_of_waveform {styles : Styles K} {s : PlacedSignal K}
    {wave : List (Primitive K)} (h : Lane.waveform styles s = .ok wave)
    (hBorder : s.segments.IsChain fun a b => a.x₁ = b.x₀)
    (hRoomy : ∀ p ∈ s.segments,
      p.x₀ ≤ p.x₁ ∧ p.x₀ + styles.options.transitionOffset * 2 ≤ p.x₁) :
    ∀ p ∈ wave, p.role ∈ [Role.level, .box] → p.Forward := by
  obtain ⟨l, start, strokes, hLane, hTraces, _, hReaches, hStart, rfl⟩ := Lane.of_waveform h
  have hReach := (Lane.of_ofSignal hLane).2.2
  intro p hp hRole
  have hOther {role : Role} (hSame : p.role = role) (hNone : role ∉ [Role.level, .box]) : False :=
    hNone (hSame ▸ hRole)
  rcases List.mem_append.mp hp with hp | hp
  · obtain ⟨stroke, hStroke, hp⟩ := List.mem_flatMap.mp hp
    have hBody := (hTraces.sorted stroke hStroke).mem_body hp
      (fun hSame => hOther hSame (by decide)) (fun hSame => hOther hSame (by decide))
    obtain ⟨hFrom, hTo⟩ := hTraces.reaches hReaches stroke hStroke
    obtain ⟨first, last, hFirst, hLast, hEnds⟩ :=
      (hTraces.draws stroke hStroke).ends hFrom hTo hBody hRole
    refine ⟨first, last, hFirst, hLast, ?_⟩
    obtain ⟨hOrder, hRoom⟩ := hRoomy stroke.segment
      (hTraces.segments ▸ List.mem_map_of_mem hStroke)
    rcases hEnds with hSame | ⟨hLeft, hRight⟩
    · exact hSame.le
    · rw [hLeft, hRight]
      exact (hTraces.within hStart hBorder stroke hStroke).start_le_stop hOrder (hReach ▸ hRoom)
  · obtain ⟨x, _, hp⟩ := List.mem_flatMap.mp hp
    exact (hOther (l.role_gapMark x p hp) (by decide)).elim

namespace Description

variable [FloorRing K] [ExactScalar K]

/-- No body is drawn backwards. Each segment has room for a crossing at both of its ends, however
much its columns shrink, and a level and the lines of a box start at or before their end. -/
theorem render_draws_forward {description : Description K} {options : Option (Options K)}
    {g : Diagram K} (hPromised : description.Promised) (hOptions : ∀ o ∈ options, o.check = .ok ())
    (h : (description.render options).outcome = .ok g) :
    ∃ d l, (description.load options).outcome = .ok d ∧ g.layout = some l ∧
      (∀ s ∈ l.signals, ∀ p ∈ s.segments,
        p.x₀ + d.options.transitionOffset ≤ p.x₁ - d.options.transitionOffset) ∧
      ∀ p ∈ g.primitives, p.role ∈ [Role.level, .box] → p.Forward := by
  rw [render, Logged.outcome_bind] at h
  obtain ⟨d, hLoad, h⟩ := bind_eq_ok_iff.mp h
  have hValid := valid_of_load hPromised hOptions hLoad
  obtain ⟨items, l, edges, hItems, hLayout, _, hDrawn, hg⟩ := Document.of_render h
  obtain ⟨frame, hFrame, hSets⟩ := Layout.sets_of_compute hValid.periods hItems hLayout
  have hPlaced (s : PlacedSignal K) (hs : s ∈ l.signals) :
      (s.segments.IsChain fun a b => a.x₁ = b.x₀) ∧ ∀ p ∈ s.segments,
        p.x₀ ≤ p.x₁ ∧ p.x₀ + d.options.transitionOffset * 2 ≤ p.x₁ := by
    obtain ⟨_, _, c, hc, ⟨_, hOwn⟩, hPlaces⟩ := exists_of_mem_forall₂ hSets hs
    exact ⟨(hPlaces.segments hOwn).2, hPlaces.roomy hOwn hValid.options hFrame hc⟩
  refine ⟨d, l, hLoad, by rw [hg], fun s hs p hp => ?_, fun p hp hRole => ?_⟩
  · have hRoom := ((hPlaced s hs).2 p hp).2
    linarith
  · have hWave : p.role ∈ Role.ofWave :=
      (by decide : [Role.level, .box] ⊆ Role.ofWave) hRole
    obtain ⟨styles, hStyles, s, hs, wave, hWaveform, hp⟩ :=
      Figure.mem_waveform_of_emit hDrawn hp hWave
    obtain ⟨hBorder, hRoomy⟩ := hPlaced s hs
    rw [← Styles.options_of_ofOptions hStyles] at hRoomy
    exact PlacedSignal.forward_of_waveform hWaveform hBorder hRoomy p hp hRole

end Description

end Exact

/-- A crossing takes four units of the segments on either side of it. -/
theorem Description.render_draws_forward_grouped :
    ∃ g l, ((parsed grouped).render none).outcome = .ok g ∧ g.layout = some l ∧
      l.signals.length = 2 ∧ (∀ s ∈ l.signals, ∀ p ∈ s.segments, p.x₀ + 4 ≤ p.x₁ - 4) ∧
      ∀ p ∈ g.primitives, p.role ∈ [Role.level, .box] → p.Forward := by
  obtain ⟨hValid, g, hg⟩ := render_grouped
  have hRender : ((parsed grouped).render none).outcome = .ok g := hg
  obtain ⟨d, l, hLoad, hLayout, hRoom, hForward⟩ :=
    render_draws_forward hValid.promised (by simp) hRender
  obtain rfl : grouped = d := Except.ok.inj hLoad
  have hReach : grouped.options.transitionOffset = 4 := by
    simp [grouped, Options.default]
  refine ⟨g, l, hRender, hLayout, ?_, hReach ▸ hRoom, hForward⟩
  obtain ⟨items, shown, _, hItems, hComputed, _, _, hShown⟩ := Document.of_render hg
  obtain ⟨_, _, hSets⟩ := Layout.sets_of_compute hValid.periods hItems hComputed
  obtain rfl : shown = l := by
    rw [hShown] at hLayout
    exact Option.some.inj hLayout
  rw [← hSets.length_eq, signals_grouped, signals_handshake]
  rfl

end TimingDiagram
