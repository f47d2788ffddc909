import TimingDiagram.Proofs.Document.Rows
import TimingDiagram.Proofs.Figure.Trace
import TimingDiagram.Proofs.Layout.Outline

/-! What a figure is drawn with, in any arithmetic. Every declared thing is drawn once: head and
foot around the lanes, the lanes in document order, each group before its members, and the edges
after all of them. -/
namespace TimingDiagram

variable {K : Type}

/-- The primitives that depict one of some things. -/
def depicting (roles : List Role) (ps : List (Primitive K)) : List (Primitive K) :=
  ps.filter fun p => p.role ∈ roles

section Depicting

variable {roles : List Role} {role : Role} {ps others : List (Primitive K)}

@[simp] theorem depicting_nil (roles : List Role) : depicting roles ([] : List (Primitive K)) = [] :=
  rfl

@[simp] theorem depicting_append :
    depicting roles (ps ++ others) = depicting roles ps ++ depicting roles others :=
  List.filter_append ..

theorem depicting_flatMap {α : Type} (f : α → List (Primitive K)) (xs : List α) :
    depicting roles (xs.flatMap f) = xs.flatMap fun x => depicting roles (f x) :=
  List.filter_flatMap ..

theorem depicting_cons (p : Primitive K) (ps : List (Primitive K)) :
    depicting roles (p :: ps) = (if p.role ∈ roles then [p] else []) ++ depicting roles ps := by
  rw [depicting, List.filter_cons]
  split_ifs with hRole hMem hMem
  · rfl
  · exact absurd (of_decide_eq_true hRole) hMem
  · exact absurd (decide_eq_true hMem) hRole
  · rfl

theorem depicting_of_role (h : ∀ p ∈ ps, p.role = role) :
    depicting roles ps = if role ∈ roles then ps else [] := by
  split_ifs with hMem
  · exact List.filter_eq_self.mpr fun p hp => by simpa [h p hp] using hMem
  · exact List.filter_eq_nil_iff.mpr fun p hp => by simpa [h p hp] using hMem

theorem depicting_eq_nil {foreign : List Role} (h : ∀ p ∈ ps, p.role ∈ foreign)
    (hForeign : ∀ role ∈ foreign, role ∉ roles) : depicting roles ps = [] :=
  List.filter_eq_nil_iff.mpr fun p hp => by simpa using hForeign _ (h p hp)

theorem depicting_depicting {more : List Role} (h : roles ⊆ more) (ps : List (Primitive K)) :
    depicting roles (depicting more ps) = depicting roles ps := by
  rw [depicting, depicting, depicting, List.filter_filter]
  refine List.filter_congr fun p _ => ?_
  rw [Bool.and_eq_left_iff_imp]
  exact fun hRole => decide_eq_true (h (of_decide_eq_true hRole))

end Depicting

/-- What stands for a segment of this kind. -/
def SegmentKind.bodyRole : SegmentKind → Role
  | level => .level
  | clock => .clock
  | data => .fill
  | gap => .fill

/-- What the primitives of a waveform depict. -/
def Role.ofWave : List Role := [level, clock, fill, box, label, transition, marker, gap]

/-- What is drawn of a compiled signal: one body for each segment, one text for each label that is
shown, and three primitives for each break symbol before its length. -/
structure Compiled.Drawn (c : Compiled K) (wave : List (Primitive K)) : Prop where
  roles : ∀ p ∈ wave, p.role ∈ Role.ofWave
  bodies : (depicting [.level, .clock, .fill] wave).map Primitive.role =
    c.segments.map fun s => s.kind.bodyRole
  labels : (depicting [.label] wave).map Primitive.text =
    (c.segments.filterMap Segment.shownLabel).map some
  breaks : (depicting [.gap] wave).length = 3 * (c.tokens.filter fun t =>
    t.tag = .gap ∧ (t.index * c.signal.period : Int) < c.length).length

/-- An edge is drawn: its line, its arrowheads and its label. -/
def EdgeSpec.DrawnAs (e : EdgeSpec) (drawn : List (Primitive K)) : Prop :=
  ∃ line heads strip, drawn = line :: heads ++ strip ∧ e.Drawn line heads strip

namespace Item

mutual

/-- How an item is drawn: a signal with its name first, and a group that holds a lane with its
bracket before its members. -/
inductive Draws : Item (Signal K) → List (Primitive K) → Prop
  | signal {s : Signal K} {c : Compiled K} {name : Primitive K} {wave : List (Primitive K)}
      (compiles : s.compile.outcome = .ok c) (role : name.role = .signalName)
      (text : name.text = some s.name) (drawn : c.Drawn wave) : Draws (.signal s) (name :: wave)
  | spacer : Draws .spacer []
  | blank {label : Option String} {members : List (Item (Signal K))}
      (blank : lanesAll members = 0) : Draws (.group label members) []
  | group {label : Option String} {members : List (Item (Signal K))} {bracket : Primitive K}
      {texts inside : List (Primitive K)} (filled : lanesAll members ≠ 0)
      (drawn : BracketDrawn label bracket texts) (within : DrawsAll members inside) :
      Draws (.group label members) (bracket :: texts ++ inside)

/-- Items are drawn one after the other. -/
inductive DrawsAll : List (Item (Signal K)) → List (Primitive K) → Prop
  | nil : DrawsAll [] []
  | cons {item : Item (Signal K)} {rest : List (Item (Signal K))}
      {first others : List (Primitive K)} (head : Draws item first) (tail : DrawsAll rest others) :
      DrawsAll (item :: rest) (first ++ others)

end

end Item

theorem Stroke.Sorted.role_drawn {s : Stroke K} (h : s.Sorted) :
    ∀ p ∈ s.drawn, p.role ∈ Role.ofWave := by
  have hBody : ∀ p ∈ s.body, p.role ∈ Role.ofWave := fun p hp =>
    (by decide : [Role.level, .clock, .fill, .box, .label] ⊆ Role.ofWave) (h.body p hp)
  have hMarkers : ∀ p ∈ s.markers, p.role ∈ Role.ofWave := fun p hp => by
    rw [h.markers p hp]
    decide
  have hJoint : ∀ p ∈ s.joint, p.role ∈ Role.ofWave := fun p hp => by
    rw [h.joint p hp]
    decide
  exact List.forall_mem_append.mpr ⟨List.forall_mem_append.mpr ⟨hBody, hMarkers⟩, hJoint⟩

/-- What the names and brackets of a drawing are: the names of some signals in their order, and one
bracket for each of some groups, with its label if there is one to show. -/
structure Tallies (signals : List (Signal K)) (brackets : List (Option String))
    (drawn : List (Primitive K)) : Prop where
  names : (depicting [.signalName] drawn).map Primitive.text = signals.map fun s => some s.name
  groups : (depicting [.group] drawn).length = brackets.length
  labels : (depicting [.groupLabel] drawn).map Primitive.text =
    (brackets.filterMap shownText).map some

namespace Tallies

variable {signals others : List (Signal K)} {brackets more : List (Option String)}
  {first second : List (Primitive K)}

theorem append (h : Tallies signals brackets first) (hMore : Tallies others more second) :
    Tallies (signals ++ others) (brackets ++ more) (first ++ second) := by
  constructor
  · rw [depicting_append, List.map_append, h.names, hMore.names, List.map_append]
  · rw [depicting_append, List.length_append, h.groups, hMore.groups, List.length_append]
  · rw [depicting_append, List.map_append, h.labels, hMore.labels, List.filterMap_append,
      List.map_append]

/-- The names and brackets that a drawing of other things has: none. -/
theorem of_foreign (foreign : List Role) (h : ∀ p ∈ first, p.role ∈ foreign)
    (hForeign : ∀ role ∈ foreign, role ∉ [Role.signalName, .group, .groupLabel]) :
    Tallies ([] : List (Signal K)) [] first := by
  have hNone {role : Role} (hRole : role ∈ [Role.signalName, .group, .groupLabel]) :
      depicting [role] first = [] :=
    depicting_eq_nil h fun other hOther hSame =>
      hForeign other hOther (List.mem_singleton.mp hSame ▸ hRole)
  constructor
  · rw [hNone (by decide)]
    rfl
  · rw [hNone (by decide)]
    rfl
  · rw [hNone (by decide)]
    rfl

end Tallies

theorem PlacedCaption.Drawn.tallies {note : Option (PlacedCaption K)}
    {title numbers : List (Primitive K)} (h : Drawn note title numbers) :
    Tallies ([] : List (Signal K)) [] (title ++ numbers) :=
  .of_foreign [.title, .tick] h.role (by decide)

theorem EdgeSpec.DrawnAs.role {e : EdgeSpec} {drawn : List (Primitive K)} (h : e.DrawnAs drawn) :
    ∀ p ∈ drawn, p.role ∈ [Role.edge, .arrow, .edgeLabel] := by
  obtain ⟨line, heads, strip, rfl, hDrawn⟩ := h
  refine List.forall_mem_append.mpr ⟨List.forall_mem_cons.mpr ⟨?_, fun p hp => ?_⟩, fun p hp => ?_⟩
  · simp [hDrawn.line_role]
  · simp [hDrawn.heads_role p hp]
  · simp [hDrawn.strip_role p hp]

theorem EdgeSpec.tallies_of_drawnAs {edges : List EdgeSpec} {lines : List (List (Primitive K))}
    (h : List.Forall₂ DrawnAs edges lines) : Tallies ([] : List (Signal K)) [] lines.flatten := by
  refine .of_foreign [.edge, .arrow, .edgeLabel] (fun p hp => ?_) (by decide)
  obtain ⟨line, hLine, hp⟩ := List.mem_flatten.mp hp
  obtain ⟨e, _, hDrawn⟩ := exists_of_mem_forall₂ h hLine
  exact hDrawn.role p hp

namespace Item

mutual

theorem Draws.tallies {item : Item (Signal K)} {drawn : List (Primitive K)} (h : item.Draws drawn) :
    Tallies item.leaves item.bracketsOf drawn := by
  cases item with
  | signal s =>
      cases h with
      | @signal s c name wave hCompile hRole hText hDrawn =>
          have hName : Tallies [s] [] [name] := by
            constructor <;> simp [depicting_cons, hRole, hText]
          exact hName.append (.of_foreign Role.ofWave hDrawn.roles (by decide))
  | spacer =>
      cases h
      exact .of_foreign [] nofun nofun
  | group label members =>
      rw [leaves, bracketsOf]
      cases h with
      | blank hNone =>
          rw [leavesAll_eq_nil hNone, if_pos hNone]
          exact .of_foreign [] nofun nofun
      | @group _ _ bracket texts inside hFilled hDrawn hInside =>
          rw [if_neg hFilled]
          have hBracket : Tallies ([] : List (Signal K)) [label] (bracket :: texts) := by
            have hLabel : [label].filterMap shownText = (shownText label).toList := by
              rw [List.filterMap_eq_flatMap_toList, List.flatMap_singleton]
            constructor <;> rw [depicting_cons, hDrawn.bracket_role,
              depicting_of_role hDrawn.texts_role]
            · rfl
            · rfl
            · rw [hLabel, ← hDrawn.text]
              rfl
          exact hBracket.append (DrawsAll.tallies hInside)

/-- The names and brackets of some items in document order. -/
theorem DrawsAll.tallies {items : List (Item (Signal K))} {drawn : List (Primitive K)}
    (h : DrawsAll items drawn) : Tallies (leavesAll items) (bracketsAll items) drawn := by
  cases items with
  | nil =>
      cases h
      exact .of_foreign [] nofun nofun
  | cons item items =>
      cases h with
      | cons hItem hItems => exact (Draws.tallies hItem).append (DrawsAll.tallies hItems)

end

end Item

/-- What is drawn beside the body of a stroke is neither a body nor a label nor a break. -/
theorem Stroke.Sorted.depicting_drawn {s : Stroke K} {roles : List Role} (h : s.Sorted)
    (hMarker : .marker ∉ roles) (hTransition : .transition ∉ roles) :
    depicting roles s.drawn = depicting roles s.body := by
  rw [Stroke.drawn, depicting_append, depicting_append, depicting_of_role h.markers,
    depicting_of_role h.joint, if_neg hMarker, if_neg hTransition, List.append_nil, List.append_nil]

namespace Lane

variable [Add K] [Sub K] [Mul K] [Div K] [BEq K] [Scalar K] {l : Lane K} {s : Stroke K}

omit [Add K] [Sub K] [Mul K] [Div K] [BEq K] [Scalar K] in
theorem depicting_boxOutline (l : Lane K) (fill : Value) (start stop : BodyEnd K) {roles : List Role}
    (hBox : .box ∉ roles) : depicting roles (l.boxOutline fill start stop) =
      if .fill ∈ roles then
        [.shape (start.outline.reverse ++ stop.outline) (Styles.filled fill) .fill]
      else [] := by
  have hEnds : ∀ p ∈ ([start, stop].filter BodyEnd.stroked).map fun e : BodyEnd K =>
      Primitive.line e.outline l.styles.line .box, p.role = .box := by
    intro p hp
    obtain ⟨_, _, rfl⟩ := List.mem_map.mp hp
    rfl
  rw [boxOutline, depicting_append, depicting_of_role hEnds, if_neg hBox, List.append_nil]
  simp only [depicting_cons, depicting_nil, Primitive.shape, Primitive.line, if_neg hBox,
    List.append_nil]

/-- A body has one primitive that stands for its segment, and its label if one is shown. -/
theorem Draws.depicting_body (h : l.Draws s) :
    (depicting [.level, .clock, .fill] s.body).map Primitive.role =
        [s.segment.segment.kind.bodyRole] ∧
      (depicting [.label] s.body).map Primitive.text =
        s.segment.segment.shownLabel.toList.map some := by
  rcases h.body_cases with ⟨hKind, hBody⟩ | ⟨hKind, hBody⟩ |
    ⟨hBox, fill, labels, hBody, hLabels, hTexts⟩
  · rw [hBody, Segment.shownLabel, hKind]
    exact ⟨rfl, rfl⟩
  · rw [hBody, Segment.shownLabel, hKind]
    exact ⟨rfl, rfl⟩
  · have hRole : s.segment.segment.kind.bodyRole = .fill := by
      cases hKind : s.segment.segment.kind <;> simp_all [Segment.isBox, SegmentKind.bodyRole]
    rw [hBody, depicting_append, depicting_append, depicting_of_role hLabels,
      depicting_of_role hLabels, l.depicting_boxOutline _ _ _ (by decide),
      l.depicting_boxOutline _ _ _ (by decide), hRole]
    exact ⟨rfl, hTexts⟩

variable {start : BodyEnd K} {segments : List (PlacedSegment K)} {strokes : List (Stroke K)}

theorem Traces.depicting_bodies (h : l.Traces start segments strokes) :
    (depicting [.level, .clock, .fill] (strokes.flatMap Stroke.drawn)).map Primitive.role =
      segments.map fun p => p.segment.kind.bodyRole := by
  rw [← h.segments, List.map_map, depicting_flatMap, List.map_flatMap, List.map_eq_flatMap]
  apply List.flatMap_congr
  intro s hs
  rw [(h.sorted s hs).depicting_drawn (by decide) (by decide), (h.draws s hs).depicting_body.1]
  rfl

theorem Traces.depicting_labels (h : l.Traces start segments strokes) :
    (depicting [.label] (strokes.flatMap Stroke.drawn)).map Primitive.text =
      (segments.filterMap fun p => p.segment.shownLabel).map some := by
  rw [← h.segments, List.filterMap_map, List.filterMap_eq_flatMap_toList, List.map_flatMap,
    depicting_flatMap, List.map_flatMap]
  apply List.flatMap_congr
  intro s hs
  rw [(h.sorted s hs).depicting_drawn (by decide) (by decide), (h.draws s hs).depicting_body.2]
  rfl

theorem Traces.depicting_breaks (h : l.Traces start segments strokes) :
    depicting [.gap] (strokes.flatMap Stroke.drawn) = [] := by
  rw [depicting_flatMap, List.flatMap_eq_nil_iff]
  intro s hs
  rw [(h.sorted s hs).depicting_drawn (by decide) (by decide)]
  exact depicting_eq_nil (h.sorted s hs).body (by decide)

omit [Mul K] [Div K] [BEq K] in
theorem role_flatMap_gapMark (l : Lane K) (xs : List K) :
    ∀ p ∈ xs.flatMap l.gapMark, p.role = .gap := by
  intro p hp
  obtain ⟨x, _, hp⟩ := List.mem_flatMap.mp hp
  exact l.role_gapMark x p hp

theorem role_waveform {styles : Styles K} {placed : PlacedSignal K} {wave : List (Primitive K)}
    (h : waveform styles placed = .ok wave) : ∀ p ∈ wave, p.role ∈ Role.ofWave := by
  obtain ⟨l, start, strokes, _, hTraces, _, _, _, rfl⟩ := of_waveform h
  refine List.forall_mem_append.mpr ⟨fun p hp => ?_, fun p hp => ?_⟩
  · obtain ⟨s, hs, hp⟩ := List.mem_flatMap.mp hp
    exact (hTraces.sorted s hs).role_drawn p hp
  · rw [l.role_flatMap_gapMark _ p hp]
    decide

omit [Mul K] [Div K] [BEq K] in
theorem length_flatMap_gapMark (l : Lane K) (xs : List K) :
    (xs.flatMap l.gapMark).length = 3 * xs.length := by
  induction xs with
  | nil => rfl
  | cons x xs ih =>
      rw [List.flatMap_cons, List.length_append, ih, List.length_cons]
      simp only [gapMark, List.length_cons, List.length_nil]
      omega

end Lane

variable [Add K] [Sub K] [Mul K] [Div K] [LT K] [LE K] [DecidableLT K] [DecidableLE K] [Scalar K]

namespace Frame

variable {f : Frame K} {s c : Compiled K}

/-- The breaks of some segments are placed one by one. -/
theorem mapM_gapMarks {segments : List Segment} {placed : List (PlacedSegment K)}
    (h : List.Forall₂ (f.PlacesSegment s) segments placed) :
    (segments.flatMap Segment.gaps).mapM (f.placeGapMark s) =
      .ok (placed.flatMap PlacedSegment.gapMarks) := by
  induction h with
  | nil => rfl
  | cons hFirst _ ih =>
      rw [List.flatMap_cons, List.flatMap_cons, List.mapM_append, hFirst.gapMarks, ok_bind, ih,
        ok_bind]
      rfl

theorem length_gapMarks {segments : List Segment} {placed : List (PlacedSegment K)}
    (h : List.Forall₂ (f.PlacesSegment s) segments placed) :
    (placed.flatMap PlacedSegment.gapMarks).length = (segments.flatMap Segment.gaps).length :=
  (forall₂_of_mapM (mapM_gapMarks h)).length_eq.symm

/-- The waveform of a placed signal shows what the signal is compiled to. -/
theorem Sets.drawn [BEq K] {styles : Styles K} {placed : PlacedSignal K} {wave : List (Primitive K)}
    (hSets : f.Sets c placed) (hOwn : c.Genuine) (h : Lane.waveform styles placed = .ok wave) :
    c.Drawn wave := by
  obtain ⟨slot, depth, top, anchors, hPlaced⟩ := hSets
  have hSegments := segments_of_placeSignal hPlaced
  have hShown := (of_placeSignal hPlaced).segments
  have hRoles := Lane.role_waveform h
  obtain ⟨l, start, strokes, _, hTraces, _, _, _, rfl⟩ := Lane.of_waveform h
  have hBreaks := l.role_flatMap_gapMark (placed.segments.flatMap PlacedSegment.gapMarks)
  refine ⟨hRoles, ?_, ?_, ?_⟩
  · rw [depicting_append, depicting_of_role hBreaks, if_neg (by decide), List.append_nil,
      hTraces.depicting_bodies, ← hShown, List.map_map]
    rfl
  · rw [depicting_append, depicting_of_role hBreaks, if_neg (by decide), List.append_nil,
      hTraces.depicting_labels, ← hShown, List.filterMap_map]
    rfl
  · obtain ⟨_, hTokens, hResolved, _⟩ := Signal.of_compile hOwn.compiles
    have hGaps := Segment.flatMap_gaps_resolve (lex_numbered hTokens)
      (by exact_mod_cast hOwn.period) hResolved
    rw [depicting_append, depicting_of_role hBreaks, if_pos (by decide), hTraces.depicting_breaks,
      List.nil_append, l.length_flatMap_gapMark, length_gapMarks hSegments, hGaps, List.length_map]
    rfl

mutual

theorem lanes_of_placeItem {depth : Nat} {item : Item (Compiled K)} {c past : Cursor K}
    {block : Block K} (h : f.placeItem depth item c = .ok (block, past)) (hLanes : item.lanes ≠ 0) :
    block.lanes ≠ none := by
  cases item with
  | signal s =>
      obtain ⟨_, placed, anchors, _, rfl⟩ := of_placeItem_signal h
      exact nofun
  | spacer =>
      obtain ⟨_, rfl⟩ := of_placeItem_spacer h
      exact nofun
  | group label members =>
      rcases of_placeItem_group h with
        ⟨hNone, _⟩ | ⟨_, top, inner, inside, bottom, _, hInner, _, hBlock, _⟩
      · exact absurd hNone hLanes
      · have hInside := lanes_of_placeItems hInner hLanes
        rcases of_bracketed hBlock with ⟨hNone, _⟩ | ⟨_, placed, _, _, rfl⟩
        · exact absurd hNone hInside
        · exact hInside

/-- What holds a lane is placed with its lanes. -/
theorem lanes_of_placeItems {depth : Nat} {items : List (Item (Compiled K))} {c past : Cursor K}
    {block : Block K} (h : f.placeItems depth items c = .ok (block, past))
    (hLanes : Item.lanesAll items ≠ 0) : block.lanes ≠ none := by
  cases items with
  | nil => exact absurd rfl hLanes
  | cons item rest =>
      obtain ⟨first, next, others, hFirst, hOthers, rfl⟩ := of_placeItems_cons h
      rw [Item.lanesAll] at hLanes
      by_cases hItem : item.lanes = 0
      · have hRest := lanes_of_placeItems hOthers (by omega)
        cases hSpan : others.lanes <;> cases hMore : first.lanes <;>
          simp_all [Block.append, LaneSpan.join]
      · have hOwn := lanes_of_placeItem hFirst hItem
        cases hSpan : others.lanes <;> cases hMore : first.lanes <;>
          simp_all [Block.append, LaneSpan.join]

end

variable [BEq K] {styles : Styles K}

mutual

theorem draws_of_placeItem {depth : Nat} {item : Item (Compiled K)} {c past : Cursor K}
    {block : Block K} {drawn : List (List (Primitive K))}
    (h : f.placeItem depth item c = .ok (block, past)) (hGenuine : ∀ c ∈ item.leaves, c.Genuine)
    (hDrawn : block.order.mapM (Figure.placed styles) = .ok drawn) :
    (item.map Compiled.signal).Draws drawn.flatten := by
  cases item with
  | signal s =>
      obtain ⟨_, placed, anchors, hPlaced, rfl⟩ := of_placeItem_signal h
      rw [List.mapM_cons, List.mapM_nil] at hDrawn
      obtain ⟨part, hPart, hDrawn⟩ := bind_eq_ok_iff.mp hDrawn
      cases hDrawn
      obtain ⟨name, wave, rfl, hRole, hText, hWave⟩ := Figure.of_signal hPart
      have hOwn : s.Genuine := hGenuine s (by simp [Item.leaves])
      have hSets : f.Sets s placed := ⟨_, _, _, anchors, hPlaced⟩
      rw [List.flatten_cons, List.flatten_nil, List.append_nil]
      exact .signal hOwn.compiles hRole (hText.trans (congrArg some (of_placeSignal hPlaced).name))
        (hSets.drawn hOwn hWave)
  | spacer =>
      obtain ⟨_, rfl⟩ := of_placeItem_spacer h
      cases hDrawn
      exact .spacer
  | group label members =>
      rcases of_placeItem_group h with
        ⟨hNone, rfl, _⟩ | ⟨hLanes, top, inner, inside, bottom, _, hInner, _, hBlock, _⟩
      · cases hDrawn
        apply Item.Draws.blank
        rw [Item.lanesAll_mapAll, hNone]
      · rcases of_bracketed hBlock with ⟨hNone, _⟩ | ⟨_, placed, _, hGroup, rfl⟩
        · exact absurd hNone (lanes_of_placeItems hInner hLanes)
        · rw [List.mapM_cons] at hDrawn
          obtain ⟨part, hPart, hDrawn⟩ := bind_eq_ok_iff.mp hDrawn
          obtain ⟨others, hOthers, hDrawn⟩ := bind_eq_ok_iff.mp hDrawn
          cases hDrawn
          obtain ⟨line, texts, rfl, hBracket⟩ := Figure.of_bracket hPart
          rw [(of_placeGroup hGroup).1] at hBracket
          rw [← Item.lanesAll_mapAll Compiled.signal] at hLanes
          exact .group hLanes hBracket (draws_of_placeItems hInner hGenuine hOthers)

/-- What is placed of some items is drawn as they are declared. -/
theorem draws_of_placeItems {depth : Nat} {items : List (Item (Compiled K))} {c past : Cursor K}
    {block : Block K} {drawn : List (List (Primitive K))}
    (h : f.placeItems depth items c = .ok (block, past))
    (hGenuine : ∀ c ∈ Item.leavesAll items, c.Genuine)
    (hDrawn : block.order.mapM (Figure.placed styles) = .ok drawn) :
    Item.DrawsAll (Item.mapAll Compiled.signal items) drawn.flatten := by
  cases items with
  | nil =>
      cases h
      cases hDrawn
      exact .nil
  | cons item rest =>
      obtain ⟨first, next, others, hFirst, hOthers, rfl⟩ := of_placeItems_cons h
      obtain ⟨hItem, hRest⟩ := List.forall_mem_append.mp hGenuine
      rw [Block.append, List.mapM_append] at hDrawn
      obtain ⟨before, hBefore, hDrawn⟩ := bind_eq_ok_iff.mp hDrawn
      obtain ⟨after, hAfter, hDrawn⟩ := bind_eq_ok_iff.mp hDrawn
      cases hDrawn
      rw [List.flatten_append]
      exact .cons (draws_of_placeItem hFirst hItem hBefore) (draws_of_placeItems hOthers hRest hAfter)

end

end Frame

namespace Figure

variable [BEq K] {styles : Styles K} {r : Registry K} {edges : List EdgeSpec}
  {results : List (EdgeResult K)} {lines : List (List (Primitive K))}

omit [LT K] [LE K] [DecidableLT K] [DecidableLE K] in
theorem role_resolvedEdge (hLines : results.mapM (resolvedEdge styles) = .ok lines) :
    ∀ p ∈ lines.flatten, p.role ∈ [Role.edge, .arrow, .edgeLabel] := by
  intro p hp
  obtain ⟨part, hPart, hp⟩ := List.mem_flatten.mp hp
  obtain ⟨result, _, hDrawn⟩ := exists_of_mem_forall₂ (forall₂_of_mapM hLines) hPart
  cases result with
  | broken broken =>
      cases hDrawn
      cases hp
  | resolved path =>
      have hEdge : path.spec.DrawnAs part := of_edge hDrawn
      exact hEdge.role p hp

omit [LT K] [LE K] [DecidableLT K] [DecidableLE K] in
/-- The edges whose ends exist are drawn in the order of their declaration. -/
theorem drawnAs_of_resolvedEdge (hResults : edges.mapM (EdgeResult.ofSpec r) = .ok results)
    (hLines : results.mapM (resolvedEdge styles) = .ok lines) :
    ∃ kept, kept.flatten = lines.flatten ∧
      List.Forall₂ EdgeSpec.DrawnAs (edges.filter (EdgeSpec.isWhole r.names)) kept := by
  obtain ⟨kept, hKept, hFlatten⟩ := mapM_resolvedEdge_filter hLines
  have hWhole := forall₂_of_mapM (EdgeResult.mapM_ofSpec_filter hResults)
  refine ⟨kept, hFlatten, (forall₂_comp hWhole (forall₂_of_mapM hKept)).imp ?_⟩
  rintro e part ⟨result, hResolved, hSpec, hPart⟩
  cases result with
  | broken broken => exact absurd (List.mem_filter.mp hResolved).2 Bool.false_ne_true
  | resolved path => exact EdgeResult.spec_of_ofSpec hSpec ▸ of_edge hPart

end Figure

variable [Max K] [Min K] [BEq K]

namespace Description

/-- Every declared thing is drawn once. The head comes first, then the items in document order, the
foot, the edges whose ends exist in the order of their declaration, and the marks of the others. A
group that holds a lane has its bracket before its members, and a signal its name before what it is
compiled to. The names of a figure are those of the signals, and its brackets those of the groups
that hold a lane. -/
theorem render_draws_each_once {description : Description K} {options : Option (Options K)}
    {g : Diagram K} (hParsed : ∀ document, description = .parsed document →
      ∀ s ∈ document.signals, 1 ≤ s.period)
    (h : (description.render options).outcome = .ok g) :
    ∃ d l title ticks lanes titleBelow ticksBelow lines marks,
      (description.load options).outcome = .ok d ∧ g.layout = some l ∧
      g.primitives =
        (title ++ ticks) ++ lanes ++ (titleBelow ++ ticksBelow) ++ List.flatten lines ++ marks ∧
      PlacedCaption.Drawn l.head title ticks ∧ Item.DrawsAll d.items lanes ∧
      PlacedCaption.Drawn l.foot titleBelow ticksBelow ∧
      List.Forall₂ EdgeSpec.DrawnAs (d.edges.filter (EdgeSpec.isWhole d.anchorNames)) lines ∧
      (∀ p ∈ marks, p.role = .unresolved) ∧
      Tallies d.signals (Item.brackets d.items) g.primitives := by
  rw [render, Logged.outcome_bind] at h
  obtain ⟨d, hLoad, h⟩ := bind_eq_ok_iff.mp h
  have hPeriods := periods_of_load hParsed hLoad
  obtain ⟨items, l, edges, hItems, hLayout, hEdges, hDrawn, hg⟩ := Document.of_render h
  have hNames := Document.names_of_layout hPeriods hItems hLayout
  have hDeclared : Item.mapAll Compiled.signal items = d.items :=
    Document.items_of_compile hItems
  obtain ⟨frame, start, block, past, hParts⟩ := Layout.assembles_of_ofItems (Layout.of_compute hLayout)
  obtain ⟨styles, head, lanes, foot, lines, _, hHead, hLanes, hFoot, hLines, hAll⟩ :=
    Figure.of_emit hDrawn
  obtain ⟨title, ticks, rfl, hAbove⟩ := Figure.of_caption hHead
  obtain ⟨titleBelow, ticksBelow, rfl, hBelow⟩ := Figure.of_caption hFoot
  rw [hParts.order] at hLanes
  have hGenuine : ∀ c ∈ Item.leavesAll items, c.Genuine := fun c hc => by
    obtain ⟨_, _, _, hOwn⟩ := exists_of_mem_forall₂
      (Document.genuine_of_compile hPeriods hItems) hc
    exact hOwn
  have hDraws := Frame.draws_of_placeItems hParts.placed hGenuine hLanes
  rw [hDeclared] at hDraws
  obtain ⟨kept, hFlatten, hKept⟩ := Figure.drawnAs_of_resolvedEdge hEdges hLines
  rw [hNames] at hKept
  rw [← hFlatten] at hAll
  have hMarks : ∀ p ∈ edges.flatMap (Figure.unresolvedEdge styles), p.role = .unresolved := by
    intro p hp
    obtain ⟨result, _, hp⟩ := List.mem_flatMap.mp hp
    exact Figure.role_unresolvedEdge styles result p hp
  refine ⟨d, l, title, ticks, lanes.flatten, titleBelow, ticksBelow, kept, _, hLoad, by rw [hg], hAll,
    hAbove, hDraws, hBelow, hKept, hMarks, ?_⟩
  have hMarksTally : Tallies ([] : List (Signal K)) []
      (edges.flatMap (Figure.unresolvedEdge styles)) :=
    .of_foreign [.unresolved] (fun p hp => by simp [hMarks p hp]) (by decide)
  have hTally := (((hAbove.tallies.append hDraws.tallies).append hBelow.tallies).append
    (EdgeSpec.tallies_of_drawnAs hKept)).append hMarksTally
  rw [hAll, Document.signals, Item.signals_eq_leavesAll, Item.brackets_eq_bracketsAll]
  simpa using hTally

/-- The empty group has no bracket, and one of the others has a label. -/
theorem render_draws_each_once_grouped :
    ∃ g, ((parsed grouped).render none).outcome = .ok g ∧
      (depicting [.signalName] g.primitives).map Primitive.text = [some "req", some "ack"] ∧
      (depicting [.group] g.primitives).length = 2 ∧
      (depicting [.groupLabel] g.primitives).map Primitive.text = [some "bus"] := by
  obtain ⟨hValid, g, hg⟩ := render_grouped
  have hRender : ((parsed grouped).render none).outcome = .ok g := hg
  obtain ⟨d, _, _, _, _, _, _, _, _, hLoad, _, _, _, _, _, _, _, hTally⟩ :=
    render_draws_each_once hValid.promised.periods hRender
  obtain rfl : grouped = d := Except.ok.inj hLoad
  have hBrackets : Item.brackets grouped.items = [some "bus", none] := by
    rw [Item.brackets_eq_bracketsAll]
    rfl
  refine ⟨g, hRender, ?_, ?_, ?_⟩
  · rw [hTally.names, signals_grouped, signals_handshake]
    rfl
  · rw [hTally.groups, hBrackets]
    rfl
  · rw [hTally.labels, hBrackets]
    decide

end Description
end TimingDiagram
