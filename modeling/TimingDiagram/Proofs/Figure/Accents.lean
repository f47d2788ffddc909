import TimingDiagram.Proofs.Figure.Inventory
import TimingDiagram.Proofs.Wave.Merging
import TimingDiagram.Proofs.Wave.Unanchored

/-! What is drawn where two segments meet: the joint, and the arrows at it. Without clocks it
depends on the looks of the two segments, on whether they are sharp and on the place of their border.
An anchor splits a run into parts of the same look, between which nothing is drawn; so that it is
seen at most where a run ends that is sharp in one part and not in the other. -/
namespace TimingDiagram

namespace Segment

variable {s : Segment}

/-- A steady segment is a box without arrows, or a line at its level. -/
theorem Steady.cases (h : s.Steady) :
    (s.isBox = true ∧ s.isSharp = false ∧ s.isMarked = false) ∨
      (s.kind = .level ∧ s.level ≠ none) := by
  obtain ⟨tag, hTag, ⟨hClock, hState⟩, hKind, hLevel⟩ := h
  rw [isBox, isSharp, isMarked, hTag, hKind, hLevel]
  cases tag <;> simp_all [SegmentKind.ofTag, Tag.isClock, Tag.isContinuation, Tag.isSharp,
    Tag.isMarked, Tag.level?]

theorem Steady.kind_ne_clock (h : s.Steady) : s.kind ≠ .clock := by
  rcases h.cases with ⟨hBox, _⟩ | ⟨hKind, _⟩
  · rintro hKind
    simp [isBox, hKind] at hBox
  · simp [hKind]

/-- Where a run ends that is split in one of two rows and not in the other, its last part is as sharp
as the whole, unless the next one is sharp itself. -/
def EndAlike (split whole : List Segment) : Prop :=
  ∀ a ∈ split, ∀ b ∈ whole, ∀ next ∈ whole, a.stop = next.start → b.stop = next.start →
    next.isSharp = false → a.isSharp = b.isSharp

theorem EndAlike.mono {split whole fewer less : List Segment} (h : EndAlike split whole)
    (hSplit : fewer ⊆ split) (hWhole : less ⊆ whole) : EndAlike fewer less :=
  fun a ha b hb next hNext => h a (hSplit ha) b (hWhole hb) next (hWhole hNext)

theorem EndAlike.sharp_eq {a b p : Segment} {split rest : List Segment}
    (h : EndAlike (a :: split) (b :: coalesceFrom p rest)) (hSplit : a.stop = p.start)
    (hWhole : b.stop = p.start) (hPlain : p.isSharp = false) : a.isSharp = b.isSharp := by
  obtain ⟨next, more, hRest, hOpening, _⟩ := isChain_coalesceFrom p rest
  have hStart : next.opening.start = p.opening.start := congrArg Segment.start hOpening
  have hTag : next.opening.tag = p.opening.tag := congrArg Segment.tag hOpening
  change next.start = p.start at hStart
  change next.tag = p.tag at hTag
  rw [hRest] at h
  refine h a List.mem_cons_self b List.mem_cons_self next (by simp) (hSplit.trans hStart.symm)
    (hWhole.trans hStart.symm) ?_
  rw [isSharp, hTag]
  exact hPlain

end Segment

namespace Lane

variable {K : Type} [Add K] [Sub K] [Mul K] [BEq K] [Scalar K] {l : Lane K} {roles : List Role}

/-- What is drawn between two adjacent segments besides their bodies. -/
def accent (l : Lane K) (a b : PlacedSegment K) : List (Primitive K) :=
  (l.joint a b).strokes ++ l.markers b (some a)

/-- What is drawn between some adjacent segments besides their bodies. -/
def accents (l : Lane K) : List (PlacedSegment K) → List (Primitive K)
  | a :: b :: rest => l.accent a b ++ l.accents (b :: rest)
  | _ => []

/-- The height of the line that a segment is drawn as, if it is a level. -/
def lineY (l : Lane K) (s : Segment) : Option K :=
  if s.kind = .level then s.level.map l.levelY else none

/-- The levels of a lane have heights, each of which is equal to itself. -/
def Measured (l : Lane K) : Prop := ∀ level, (l.levelY level == l.levelY level) = true

omit [Sub K] in
theorem Measured.beq_lineY (h : l.Measured) {s : Segment} {y : K} (hLine : l.lineY s = some y) :
    (y == y) = true := by
  rw [lineY] at hLine
  split_ifs at hLine
  obtain ⟨level, _, rfl⟩ := Option.map_eq_some_iff.mp hLine
  exact h level

section Places

variable {x : Int → K} {a b a' b' : PlacedSegment K}

omit [Sub K] [BEq K] in
/-- The line of a segment that is no clock has one height. -/
theorem heights_of_kind_ne_clock (h : a.segment.kind ≠ .clock) :
    l.entryY a = l.lineY a.segment ∧ l.exitY a = l.lineY a.segment := by
  rw [entryY, exitY, lineY]
  cases hKind : a.segment.kind with
  | clock => exact absurd hKind h
  | level => exact ⟨rfl, rfl⟩
  | data => exact ⟨rfl, rfl⟩
  | gap => exact ⟨rfl, rfl⟩

/-- What of two segments their joint depends on. -/
theorem joint_congr (hBefore : l.exitY a = l.exitY a') (hAfter : l.entryY b = l.entryY b')
    (hBorder : b.x₀ = b'.x₀)
    (hEdge : (a.segment.isSharp || b.segment.isSharp) = (a'.segment.isSharp || b'.segment.isSharp))
    (hSeam : seamless a.segment b.segment = seamless a'.segment b'.segment)
    (hLevel : a.segment.level = a'.segment.level) (hNext : b.segment.level = b'.segment.level) :
    l.joint a b = l.joint a' b' := by
  simp only [joint, slope, hBefore, hAfter, hBorder, hEdge, hSeam, hLevel, hNext]

/-- What the arrows at the start of a segment that is no clock depend on. -/
theorem markers_congr (hClock : b.segment.kind ≠ .clock) (hSame : b.segment = b'.segment)
    (hBorder : b.x₀ = b'.x₀) (hBefore : l.exitY a = l.exitY a') :
    l.markers b (some a) = l.markers b' (some a') := by
  rw [hSame] at hClock
  simp only [markers, heightBefore, Option.bind_some, hSame, if_neg hClock, hBorder, hBefore]
  rfl

/-- A segment placed by its cycles alone, without pulses. -/
def spot (x : Int → K) (s : Segment) : PlacedSegment K := ⟨s, x s.start, x s.stop, [], []⟩

omit [Sub K] [BEq K] in
theorem heights_spot {s : Segment} (h : s.kind ≠ .clock) :
    l.entryY (spot x s) = l.lineY s ∧ l.exitY (spot x s) = l.lineY s :=
  heights_of_kind_ne_clock h

/-- Segments that are no clocks are joined as their cycles say. -/
theorem accent_spot (hFirst : a.segment.kind ≠ .clock) (hSecond : b.segment.kind ≠ .clock)
    (hBorder : b.x₀ = x b.segment.start) :
    l.accent a b = l.accent (spot x a.segment) (spot x b.segment) := by
  have hBefore : l.exitY a = l.exitY (spot x a.segment) := by
    rw [(heights_of_kind_ne_clock hFirst).2, (heights_spot hFirst).2]
  have hAfter : l.entryY b = l.entryY (spot x b.segment) := by
    rw [(heights_of_kind_ne_clock hSecond).1, (heights_spot hSecond).1]
  have hMarkers : l.markers b (some a) = l.markers (spot x b.segment) (some (spot x a.segment)) :=
    markers_congr hSecond rfl hBorder hBefore
  rw [accent, accent, joint_congr hBefore hAfter hBorder rfl rfl rfl rfl, hMarkers]

theorem accents_spot {placed : List (PlacedSegment K)}
    (h : ∀ p ∈ placed, p.segment.kind ≠ .clock ∧ p.x₀ = x p.segment.start) :
    l.accents placed = l.accents (placed.map fun p => spot x p.segment) := by
  induction placed with
  | nil => rfl
  | cons a rest ih =>
      cases rest with
      | nil => rfl
      | cons b rest =>
          obtain ⟨⟨hFirst, _⟩, hRest⟩ := List.forall_mem_cons.mp h
          obtain ⟨⟨hSecond, hBorder⟩, _⟩ := List.forall_mem_cons.mp hRest
          have hOthers := ih hRest
          simp only [List.map_cons] at hOthers
          simp only [List.map_cons, accents, accent_spot hFirst hSecond hBorder, hOthers]

end Places

section Splitting

variable {x : Int → K} {a b p : Segment}

omit [Sub K] [BEq K] in
theorem lineY_congr (h : a.look = b.look) : l.lineY a = l.lineY b := by
  obtain ⟨hKind, hLevel, _⟩ := Segment.look_eq_iff.mp h
  rw [lineY, lineY, hKind, hLevel]

omit [Sub K] [BEq K] in
theorem exitY_spot_congr (h : a.look = b.look) (hClock : a.kind ≠ .clock) :
    l.exitY (spot x a) = l.exitY (spot x b) := by
  have hOther : b.kind ≠ .clock := (Segment.look_eq_iff.mp h).1 ▸ hClock
  rw [(heights_spot hClock).2, (heights_spot hOther).2, lineY_congr h]

/-- Neither the length of a segment nor its anchor matters to what is drawn at its ends. -/
theorem accent_opening (a b : Segment) :
    l.accent (spot x a.opening) (spot x b.opening) = l.accent (spot x a) (spot x b) := rfl

theorem strokes_of_look_eq (hMeasured : l.Measured) (hLook : a.look = b.look)
    (hData : b.kind = .data → b.continuation = true) (hSteady : b.Steady) :
    (l.joint (spot x a) (spot x b)).strokes = [] := by
  obtain ⟨hKind, _, hColor, _⟩ := Segment.look_eq_iff.mp hLook
  have hClock := hSteady.kind_ne_clock
  have hBefore : l.exitY (spot x a) = l.lineY b := by
    rw [exitY_spot_congr hLook (hKind ▸ hClock), (heights_spot hClock).2]
  have hAfter : l.entryY (spot x b) = l.lineY b := (heights_spot hClock).1
  cases hLine : l.lineY b with
  | some y =>
      have hSame := hMeasured.beq_lineY hLine
      rw [hLine] at hBefore hAfter
      by_cases hEdge : HardEdge (spot x a) (spot x b)
      · rw [joint_of_hardEdge hEdge, hBefore, hAfter, step, if_pos hSame]
      · rw [joint_of_lines hEdge hBefore hAfter, if_pos hSame]
  | none =>
      rw [hLine] at hBefore hAfter
      have hSeam : seamless a b = true := by
        rcases hSteady.cases with ⟨hBox, _⟩ | ⟨hLevel, hSome⟩
        · rw [Segment.isBox, Bool.or_eq_true, decide_eq_true_eq, decide_eq_true_eq] at hBox
          rcases hBox with hBox | hBox
          · simp [seamless, Segment.isBox, hKind, hColor, hBox, hData hBox]
          · simp [seamless, Segment.isBox, hKind, hBox]
        · rw [lineY, if_pos hLevel, Option.map_eq_none_iff] at hLine
          exact absurd hLine hSome
      by_cases hEdge : HardEdge (spot x a) (spot x b)
      · rw [joint_of_hardEdge hEdge, hBefore, hAfter]
        rfl
      · rw [joint_of_boxes hEdge hBefore hAfter, show (spot x a).segment = a from rfl,
          show (spot x b).segment = b from rfl, if_pos hSeam]

theorem markers_of_look_eq (hMeasured : l.Measured) (hLook : a.look = b.look) (hSteady : b.Steady) :
    l.markers (spot x b) (some (spot x a)) = [] := by
  have hClock := hSteady.kind_ne_clock
  have hBefore : l.exitY (spot x a) = l.lineY b := by
    rw [exitY_spot_congr hLook ((Segment.look_eq_iff.mp hLook).1 ▸ hClock), (heights_spot hClock).2]
  have hOwn : (spot x b).segment = b := rfl
  rcases hSteady.cases with ⟨_, _, hPlain⟩ | ⟨hLevel, hSome⟩
  · simp [markers, hOwn, hPlain]
  · obtain ⟨level, hOwnLevel⟩ := Option.ne_none_iff_exists'.mp hSome
    have hSame : l.heightBefore (some (spot x a)) = some (l.levelY level) := by
      rw [heightBefore, Option.bind_some, hBefore, lineY, if_pos hLevel, hOwnLevel, Option.map_some]
    simp [markers, hOwn, hLevel, hSame, hOwnLevel, hMeasured level]

/-- Nothing is drawn where a segment goes on as the one before it. -/
theorem accent_eq_nil (hMeasured : l.Measured) (hLook : a.look = b.look)
    (hData : b.kind = .data → b.continuation = true) (hSteady : b.Steady) :
    l.accent (spot x a) (spot x b) = [] := by
  rw [accent, strokes_of_look_eq hMeasured hLook hData hSteady,
    markers_of_look_eq hMeasured hLook hSteady, List.append_nil]

/-- Two segments of one look are joined alike with the next one where they are equally sharp, or that
one is sharp itself; and the arrows are the same in any case. -/
theorem depicting_accent_congr (hLook : a.look = b.look) (hFirst : a.Steady) (hSecond : p.Steady)
    (hSharp : .transition ∈ roles → p.isSharp = false → a.isSharp = b.isSharp) :
    depicting roles (l.accent (spot x a) (spot x p)) =
      depicting roles (l.accent (spot x b) (spot x p)) := by
  obtain ⟨hKind, hLevel, hColor, _⟩ := Segment.look_eq_iff.mp hLook
  have hBefore : l.exitY (spot x a) = l.exitY (spot x b) :=
    exitY_spot_congr hLook hFirst.kind_ne_clock
  have hMarkers : l.markers (spot x p) (some (spot x a)) = l.markers (spot x p) (some (spot x b)) :=
    markers_congr hSecond.kind_ne_clock rfl rfl hBefore
  rw [accent, accent, depicting_append, depicting_append, hMarkers]
  congr 1
  by_cases hDrawn : Role.transition ∈ roles
  · have hEdge : ((spot x a).segment.isSharp || (spot x p).segment.isSharp) =
        ((spot x b).segment.isSharp || (spot x p).segment.isSharp) := by
      change (a.isSharp || p.isSharp) = (b.isSharp || p.isSharp)
      cases hNext : p.isSharp with
      | true => rw [Bool.or_true, Bool.or_true]
      | false => rw [hSharp hDrawn hNext]
    have hSeam : seamless a p = seamless b p := by
      simp only [seamless, Segment.isBox, hKind, hColor]
    rw [joint_congr hBefore rfl rfl hEdge hSeam hLevel rfl]
  · have hRole := fun c : Segment => (l.fits_joint (spot x c) (spot x p)).role
    rw [depicting_of_role (hRole a), depicting_of_role (hRole b), if_neg hDrawn, if_neg hDrawn]

/-- The accents from a run on are those at the start of the next one and from there on. -/
theorem accents_cons_coalesceFrom (a p : Segment) (rest : List Segment) :
    l.accents ((a :: Segment.coalesceFrom p rest).map (spot x)) =
      l.accent (spot x a) (spot x p) ++ l.accents ((Segment.coalesceFrom p rest).map (spot x)) := by
  obtain ⟨next, more, hRest, hOpening, _⟩ := Segment.isChain_coalesceFrom p rest
  rw [hRest, List.map_cons, List.map_cons, accents, ← accent_opening a next, hOpening,
    accent_opening]

/-- Pieces give the same accents when they are merged with their anchors and without. The one run may
have been split where the other goes on; both look the same and end where the next piece starts. -/
theorem accents_unanchored_coalesceFrom {stop : Int} {rest : List Segment}
    (hMeasured : l.Measured) (hLook : a.look = b.look) (hStop : a.stop = b.stop)
    (hTiles : Segment.Tiles a.stop stop rest) (hLabels : ∀ p ∈ rest, p.Unlabelled)
    (hFirst : a.Steady) (hSteady : ∀ p ∈ rest, p.Steady)
    (hEnds : .transition ∈ roles → Segment.EndAlike (Segment.coalesceFrom a rest)
      (Segment.coalesceFrom b (rest.map Segment.unanchored))) :
    depicting roles (l.accents ((Segment.coalesceFrom a rest).map (spot x))) =
      depicting roles (l.accents
        ((Segment.coalesceFrom b (rest.map Segment.unanchored)).map (spot x))) := by
  induction rest generalizing a b with
  | nil => rfl
  | cons p rest ih =>
      obtain ⟨hStart, _, hNext⟩ := hTiles
      obtain ⟨hLabel, hLabels⟩ := List.forall_mem_cons.mp hLabels
      obtain ⟨hOwn, hSteady⟩ := List.forall_mem_cons.mp hSteady
      have hSplit : a.absorbs p = a.joins p := Segment.absorbs_eq_joins hStart.symm hLabel
      have hWhole : b.absorbs p.unanchored = b.joins p.unanchored :=
        Segment.absorbs_eq_joins (hStop.symm.trans hStart.symm) hLabel
      rw [List.map_cons] at hEnds ⊢
      rw [Segment.coalesceFrom, Segment.coalesceFrom, hSplit, hWhole] at hEnds ⊢
      by_cases hJoins : a.joins p = true
      · -- The piece goes on in both rows.
        obtain ⟨_, hSame, hData⟩ := Segment.joins_iff.mp hJoins
        have hOther : b.joins p.unanchored = true :=
          Segment.joins_iff.mpr ⟨rfl, hLook.symm.trans hSame, hData⟩
        rw [if_pos hJoins, if_pos hOther] at hEnds ⊢
        have hEnd : (a.merge p).stop = p.stop := Segment.stop_merge hStart.symm
        have hOtherEnd : (b.merge p.unanchored).stop = p.stop :=
          Segment.stop_merge (hStop.symm.trans hStart.symm)
        exact ih hLook (hEnd.trans hOtherEnd.symm) (hEnd ▸ hNext) hLabels hFirst hSteady hEnds
      · by_cases hOther : b.joins p.unanchored = true
        · -- An anchor splits the run of one row, which nothing shows.
          obtain ⟨_, hSame, hData⟩ := Segment.joins_iff.mp hOther
          rw [if_neg hJoins, if_pos hOther] at hEnds ⊢
          have hEnd : (b.merge p.unanchored).stop = p.stop :=
            Segment.stop_merge (hStop.symm.trans hStart.symm)
          have hOn : a.look = p.look := hLook.trans hSame
          rw [accents_cons_coalesceFrom, accent_eq_nil hMeasured hOn hData hOwn, List.nil_append]
          exact ih hSame.symm hEnd.symm hNext hLabels hOwn hSteady fun hRole =>
            (hEnds hRole).mono (List.subset_cons_self a _) (List.Subset.refl _)
        · -- A run ends in both rows.
          rw [if_neg hJoins, if_neg hOther] at hEnds ⊢
          rw [accents_cons_coalesceFrom, accents_cons_coalesceFrom, depicting_append,
            depicting_append]
          congr 1
          · exact depicting_accent_congr hLook hFirst hOwn fun hRole hPlain =>
              (hEnds hRole).sharp_eq hStart.symm (hStop.symm.trans hStart.symm) hPlain
          · exact ih rfl rfl hNext hLabels hOwn hSteady fun hRole =>
              (hEnds hRole).mono (List.subset_cons_self a _) (List.subset_cons_self b _)

/-- Pieces from the start of a signal on give the same accents with their anchors and without. -/
theorem accents_unanchored_coalesce {start stop : Int} {ps : List Segment}
    (hMeasured : l.Measured) (hTiles : Segment.Tiles start stop ps)
    (hLabels : ∀ p ∈ ps, p.Unlabelled) (hSteady : ∀ p ∈ ps, p.Steady)
    (hEnds : .transition ∈ roles →
      Segment.EndAlike (Segment.coalesce ps) (Segment.coalesce (ps.map Segment.unanchored))) :
    depicting roles (l.accents ((Segment.coalesce ps).map (spot x))) =
      depicting roles (l.accents
        ((Segment.coalesce (ps.map Segment.unanchored)).map (spot x))) := by
  cases ps with
  | nil => rfl
  | cons p rest =>
      obtain ⟨_, _, hNext⟩ := hTiles
      obtain ⟨hOwn, hSteady⟩ := List.forall_mem_cons.mp hSteady
      exact accents_unanchored_coalesceFrom hMeasured rfl rfl hNext
        (List.forall_mem_cons.mp hLabels).2 hOwn hSteady hEnds

end Splitting

section Bodies

variable [Div K]

theorem role_body {p : PlacedSegment K} {start stop : BodyEnd K} {drawn : List (Primitive K)}
    (h : l.body p start stop = .ok drawn) :
    ∀ q ∈ drawn, q.role ∈ [Role.level, .clock, .fill, .box, .label] := by
  have hDraws : l.Draws ⟨p, start, stop, drawn, l.markers p none, []⟩ := ⟨h, none, rfl⟩
  exact (hDraws.sorted nofun).body

/-- Besides the bodies of some segments there are the arrows at the start of the first one and what
is drawn where they meet. -/
theorem depicting_bodies {p : PlacedSegment K} {rest : List (PlacedSegment K)}
    {previous : Option (PlacedSegment K)} {start : BodyEnd K} {drawn : List (Primitive K)}
    (hForeign : ∀ role ∈ [Role.level, .clock, .fill, .box, .label], role ∉ roles)
    (h : l.bodies previous start (p :: rest) = .ok drawn) :
    depicting roles drawn = depicting roles (l.markers p previous ++ l.accents (p :: rest)) := by
  induction rest generalizing p previous start drawn with
  | nil =>
      rw [bodies] at h
      obtain ⟨own, hOwn, h⟩ := bind_eq_ok_iff.mp h
      cases h
      have hNone : l.accents [p] = [] := rfl
      rw [depicting_append, depicting_eq_nil (role_body hOwn) hForeign, hNone, List.nil_append,
        List.append_nil]
  | cons q rest ih =>
      rw [bodies] at h
      obtain ⟨own, hOwn, h⟩ := bind_eq_ok_iff.mp h
      obtain ⟨others, hOthers, h⟩ := bind_eq_ok_iff.mp h
      cases h
      rw [accents, accent]
      simp only [depicting_append, depicting_eq_nil (role_body hOwn) hForeign, ih hOthers,
        List.nil_append, List.append_assoc]

end Bodies

end Lane
end TimingDiagram
