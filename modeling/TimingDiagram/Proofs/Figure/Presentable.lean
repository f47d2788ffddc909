import TimingDiagram.Proofs.Figure.Drawing
import TimingDiagram.Proofs.Figure.Parts
import TimingDiagram.Proofs.Markup.Grammar
import TimingDiagram.Proofs.Value.Entries

/-! Primitives that can be presented. A rendered figure has only primitives with the points that their
form wants, and with styles that say how they look and not where they are. -/
namespace TimingDiagram

/-- The names that say where an element is. -/
def geometryNames : List String := ["x", "y", "width", "height", "d", "points"]

/-- The names by which an element is told its place, its text and its settings, and which are no
attributes of it. -/
def parameterNames : List String :=
  ["insert", "size", "text", "dx", "dy", "rotate", "factory", "debug", "profile"]

/-- Whether a name can stand in a style. An underscore in a name would be written as a hyphen. -/
def isStyleName (name : String) : Bool :=
  Markup.isName name && name ∉ geometryNames && name ∉ parameterNames && '_' ∉ name.toList

/-- A style all of whose names can stand in one. -/
def Style.Plain (style : Style) : Prop := ∀ entry ∈ style, isStyleName entry.1 = true

theorem Style.Plain.append {first second : Style} (h : first.Plain) (hMore : second.Plain) :
    Style.Plain (first ++ second) :=
  List.forall_mem_append.mpr ⟨h, hMore⟩

/-- The number of points that a form wants, if it wants a certain one. -/
def PrimitiveKind.arity : PrimitiveKind → Option Nat
  | rect => some 2
  | bezier => some 4
  | text => some 1
  | _ => none

namespace Primitive

variable {K : Type}

/-- A primitive that has the points of its form, and a style of names for styles. -/
structure Presentable (p : Primitive K) : Prop where
  arity : ∀ n ∈ p.kind.arity, p.points.length = n
  plain : p.style.Plain

theorem presentable_line {points : List (Point K)} {style : Style} {role : Role} (h : style.Plain) :
    (line points style role).Presentable :=
  ⟨nofun, h⟩

theorem presentable_shape {points : List (Point K)} {style : Style} {role : Role} (h : style.Plain) :
    (shape points style role).Presentable :=
  ⟨nofun, h⟩

theorem presentable_label {point : Point K} {text : String} {style : Style} {role : Role}
    (h : style.Plain) : (label point text style role).Presentable :=
  ⟨by rintro _ ⟨⟩; rfl, h⟩

variable {p : Primitive K}

theorem Presentable.attrs (h : p.Presentable) :
    Value.Distinct p.attrs ∧ ∀ name ∈ p.attrs.map Prod.fst, isStyleName name = true := by
  refine ⟨Value.Distinct.update List.nodup_nil, fun name hName => ?_⟩
  obtain ⟨entry, hEntry, rfl⟩ := List.mem_map.mp
    ((Value.mem_keys_update hName).resolve_left List.not_mem_nil)
  exact h.plain entry hEntry

end Primitive

namespace Styles

variable {K : Type} (s : Styles K)

theorem plain_stroked (color : Value) : (s.stroked color).Plain := by
  simp only [Style.Plain, stroked, entry, List.forall_mem_cons]
  exact ⟨by decide, by decide, by decide, List.forall_mem_nil _⟩

theorem plain_filled (color : Value) : (filled color).Plain := by
  simp only [Style.Plain, filled, entry, List.forall_mem_cons]
  exact ⟨by decide, by decide, List.forall_mem_nil _⟩

theorem plain_of_text [Scalar K] {anchor : String} {color : Value} {more style : Style}
    (hMore : more.Plain) (h : s.text anchor color more = .ok style) : style.Plain := by
  obtain ⟨size, _, h⟩ := bind_eq_ok_iff.mp h
  cases h
  refine Style.Plain.append ?_ hMore
  simp only [Style.Plain, entry, List.forall_mem_cons]
  exact ⟨by decide, by decide, by decide, by decide, by decide, List.forall_mem_nil _⟩

end Styles

/-- Some primitives that can be presented. -/
def AllPresentable {K : Type} (ps : List (Primitive K)) : Prop := ∀ p ∈ ps, p.Presentable

section Parts

variable {K : Type} {ps qs : List (Primitive K)}

theorem AllPresentable.nil : AllPresentable ([] : List (Primitive K)) := List.forall_mem_nil _

theorem AllPresentable.cons {p : Primitive K} (h : p.Presentable) (hMore : AllPresentable ps) :
    AllPresentable (p :: ps) :=
  List.forall_mem_cons.mpr ⟨h, hMore⟩

theorem AllPresentable.append (h : AllPresentable ps) (hMore : AllPresentable qs) :
    AllPresentable (ps ++ qs) :=
  List.forall_mem_append.mpr ⟨h, hMore⟩

/-- What is drawn part by part can be presented when each part can. -/
theorem AllPresentable.of_mapM {α : Type} {f : α → Except Fault (List (Primitive K))} {as : List α}
    {parts : List (List (Primitive K))} (hf : ∀ a drawn, f a = .ok drawn → AllPresentable drawn)
    (h : as.mapM f = .ok parts) : AllPresentable parts.flatten := by
  intro p hp
  obtain ⟨part, hPart, hp⟩ := List.mem_flatten.mp hp
  obtain ⟨a, -, ha⟩ := exists_of_mem_forall₂ (forall₂_of_mapM h) hPart
  exact hf a part ha p hp

end Parts

namespace Lane

variable {K : Type} [Add K] [Sub K] [Mul K] [Div K] [BEq K] [Scalar K] (l : Lane K)

omit [Add K] [Sub K] [Mul K] [Div K] [BEq K] [Scalar K] in
theorem presentable_boxOutline (fill : Value) (start stop : BodyEnd K) :
    AllPresentable (l.boxOutline fill start stop) := by
  have hLine := l.styles.plain_stroked l.styles.options.stroke
  refine .append (.cons (Primitive.presentable_shape (Styles.plain_filled fill))
    (.cons (Primitive.presentable_line hLine) (.cons (Primitive.presentable_line hLine) .nil))) ?_
  intro p hp
  obtain ⟨e, -, rfl⟩ := List.mem_map.mp hp
  exact Primitive.presentable_line hLine

variable {l}

omit [Sub K] [Mul K] [BEq K] in
theorem presentable_boxLabel {seg : Segment} {start stop : BodyEnd K} {drawn : List (Primitive K)}
    (h : l.boxLabel seg start stop = .ok drawn) : AllPresentable drawn := by
  rw [boxLabel] at h
  split at h
  · cases h
    exact .nil
  · obtain ⟨style, hStyle, h⟩ := bind_eq_ok_iff.mp h
    cases h
    have hPlain := l.styles.plain_of_text (List.forall_mem_nil _) hStyle
    exact .cons (Primitive.presentable_label hPlain) .nil

omit [Sub K] [BEq K] in
theorem presentable_body {p : PlacedSegment K} {start stop : BodyEnd K}
    {drawn : List (Primitive K)} (h : l.body p start stop = .ok drawn) : AllPresentable drawn := by
  have hLine := l.styles.plain_stroked l.styles.options.stroke
  cases hKind : p.segment.kind <;> simp only [body, hKind] at h
  case data =>
    obtain ⟨fill, -, h⟩ := bind_eq_ok_iff.mp h
    obtain ⟨labels, hLabels, h⟩ := bind_eq_ok_iff.mp h
    cases h
    exact (l.presentable_boxOutline fill start stop).append (presentable_boxLabel hLabels)
  case gap =>
    cases h
    exact l.presentable_boxOutline _ start stop
  all_goals
    cases h
    exact .cons (Primitive.presentable_line hLine) .nil

variable (l)

omit [Div K] in
theorem presentable_markers (p : PlacedSegment K) (previous : Option (PlacedSegment K)) :
    AllPresentable (l.markers p previous) := by
  have hArrow (x : K) (up : Bool) : (l.arrowMarker x up).Presentable :=
    Primitive.presentable_shape (Styles.plain_filled _)
  rw [markers]
  split_ifs
  · exact .nil
  · intro q hq
    obtain ⟨pulse, -, rfl⟩ := List.mem_map.mp hq
    exact hArrow _ _
  · exact .nil
  · exact .cons (hArrow _ _) .nil

omit [Div K] in
theorem presentable_joint (a b : PlacedSegment K) : AllPresentable (l.joint a b).strokes := by
  have hLine := l.styles.plain_stroked l.styles.options.stroke
  have hOne (points : List (Point K)) :
      AllPresentable [Primitive.line points l.styles.line .transition] :=
    .cons (Primitive.presentable_line hLine) .nil
  by_cases hEdge : HardEdge a b
  · rw [joint_of_hardEdge hEdge, step.eq_def]
    split
    · split_ifs
      · exact .nil
      · exact hOne _
    · exact .nil
  · cases hBefore : l.exitY a with
    | some ya =>
        cases hAfter : l.entryY b with
        | some yb =>
            rw [joint_of_lines hEdge hBefore hAfter]
            split_ifs
            · exact .nil
            · refine .cons ?_ .nil
              rw [slope]
              split_ifs
              · exact ⟨by rintro _ ⟨⟩; rfl, hLine⟩
              · exact Primitive.presentable_line hLine
        | none =>
            rw [joint_of_opening hEdge hBefore hAfter]
            exact hOne _
    | none =>
        cases hAfter : l.entryY b with
        | some yb =>
            rw [joint_of_closing hEdge hBefore hAfter]
            exact hOne _
        | none =>
            rw [joint_of_boxes hEdge hBefore hAfter]
            split_ifs
            · exact .nil
            · exact .cons (Primitive.presentable_line hLine) (hOne _)

variable {l}

theorem presentable_bodies {segments : List (PlacedSegment K)} {previous : Option (PlacedSegment K)}
    {start : BodyEnd K} {drawn : List (Primitive K)}
    (h : l.bodies previous start segments = .ok drawn) : AllPresentable drawn := by
  induction segments generalizing previous start drawn with
  | nil =>
      cases h
      exact .nil
  | cons p rest ih =>
      cases rest with
      | nil =>
          rw [bodies] at h
          obtain ⟨body, hBody, h⟩ := bind_eq_ok_iff.mp h
          cases h
          exact (presentable_body hBody).append (l.presentable_markers p previous)
      | cons q rest =>
          rw [bodies] at h
          obtain ⟨body, hBody, h⟩ := bind_eq_ok_iff.mp h
          obtain ⟨others, hOthers, h⟩ := bind_eq_ok_iff.mp h
          cases h
          exact (((presentable_body hBody).append (l.presentable_markers p previous)).append
            (l.presentable_joint p q)).append (ih hOthers)

theorem presentable_waveform {styles : Styles K} {s : PlacedSignal K} {drawn : List (Primitive K)}
    (h : waveform styles s = .ok drawn) : AllPresentable drawn := by
  rw [waveform] at h
  obtain ⟨l, -, h⟩ := bind_eq_ok_iff.mp h
  split at h
  · cases h
    exact .nil
  · obtain ⟨_, -, h⟩ := bind_eq_ok_iff.mp h
    obtain ⟨bodies, hBodies, h⟩ := bind_eq_ok_iff.mp h
    cases h
    refine (presentable_bodies hBodies).append fun p hp => ?_
    obtain ⟨x, -, hp⟩ := List.mem_flatMap.mp hp
    have hLine := l.styles.plain_stroked l.styles.options.stroke
    have hMark : AllPresentable (l.gapMark x) :=
      .cons (Primitive.presentable_shape (Styles.plain_filled _))
        (.cons (Primitive.presentable_line hLine) (.cons (Primitive.presentable_line hLine) .nil))
    exact hMark p hp

end Lane

namespace Figure

variable {K : Type} [Scalar K] {styles : Styles K} {drawn : List (Primitive K)}

theorem presentable_caption {note : Option (PlacedCaption K)} (h : caption styles note = .ok drawn) :
    AllPresentable drawn := by
  have hTexts {more : Style} {role : Role} (hMore : more.Plain) {texts : List (PlacedText K)}
      {ps : List (Primitive K)} (h : (texts.mapM fun t => do
        return Primitive.label t.point t.text (← styles.centred more) role) = .ok ps) :
      AllPresentable ps := by
    intro p hp
    obtain ⟨t, -, h⟩ := exists_of_mem_forall₂ (forall₂_of_mapM h) hp
    obtain ⟨style, hStyle, h⟩ := bind_eq_ok_iff.mp h
    cases h
    exact Primitive.presentable_label (styles.plain_of_text hMore hStyle)
  cases note with
  | none =>
      cases h
      exact .nil
  | some note =>
      rw [caption] at h
      obtain ⟨title, hTitle, h⟩ := bind_eq_ok_iff.mp h
      obtain ⟨numbers, hNumbers, h⟩ := bind_eq_ok_iff.mp h
      cases h
      exact (hTexts (List.forall_mem_singleton.mpr (by decide)) hTitle).append
        (hTexts (List.forall_mem_nil _) hNumbers)

theorem presentable_bracket {g : PlacedGroup K} (h : bracket styles g = .ok drawn) :
    AllPresentable drawn := by
  have hLine : Primitive.Presentable (K := K) ⟨.bracket, g.bracket, none, styles.line, .group, false⟩ :=
    ⟨nofun, styles.plain_stroked styles.options.stroke⟩
  have hTurn : isStyleName "transform" = true := by decide
  rw [bracket] at h
  split at h
  · cases h
    exact .cons hLine .nil
  · obtain ⟨_, -, h⟩ := bind_eq_ok_iff.mp h
    obtain ⟨_, -, h⟩ := bind_eq_ok_iff.mp h
    obtain ⟨style, hStyle, h⟩ := bind_eq_ok_iff.mp h
    cases h
    have hPlain := styles.plain_of_text (List.forall_mem_singleton.mpr hTurn) hStyle
    exact .cons hLine (.cons (Primitive.presentable_label hPlain) .nil)

variable [Add K] [Sub K] [Mul K] [Div K] [BEq K]

theorem presentable_placed {p : Placed K} (h : placed styles p = .ok drawn) :
    AllPresentable drawn := by
  cases p with
  | group g => exact presentable_bracket h
  | signal s =>
      obtain ⟨style, hStyle, h⟩ := bind_eq_ok_iff.mp h
      obtain ⟨wave, hWave, h⟩ := bind_eq_ok_iff.mp h
      cases h
      have hPlain := styles.plain_of_text (List.forall_mem_nil _) hStyle
      exact .cons (Primitive.presentable_label hPlain) (Lane.presentable_waveform hWave)

omit [BEq K] in
theorem presentable_edgeLabel {point : Point K} {text : String}
    (h : edgeLabel styles point text = .ok drawn) : AllPresentable drawn := by
  rw [edgeLabel] at h
  obtain ⟨_, -, h⟩ := bind_eq_ok_iff.mp h
  obtain ⟨_, -, h⟩ := bind_eq_ok_iff.mp h
  obtain ⟨style, hStyle, h⟩ := bind_eq_ok_iff.mp h
  cases h
  have hPlain := styles.plain_of_text (List.forall_mem_nil _) hStyle
  exact .cons ⟨by rintro _ ⟨⟩; rfl, Styles.plain_filled _⟩
    (.cons (Primitive.presentable_label hPlain) .nil)

omit [Div K] in
theorem presentable_edgeLine {path : EdgePath K}
    (hCurve : path.spec.style.shape.isCurve = true → path.points.length = 4) :
    AllPresentable (edgeLine styles path) := by
  have hHead (tip : Point K) (angle : K) : (arrowhead styles tip angle).Presentable :=
    Primitive.presentable_shape (Styles.plain_filled _)
  have hDashes : Style.Plain
      (if path.spec.style.dashed then [Styles.entry "stroke-dasharray" "4,3"] else []) := by
    split_ifs
    · exact List.forall_mem_singleton.mpr (by decide)
    · exact List.forall_mem_nil _
  have hLine := (styles.plain_stroked styles.options.edgeColor).append hDashes
  have hArity : ∀ n ∈ (if path.spec.style.shape.isCurve then PrimitiveKind.bezier
      else .polyline).arity, path.points.length = n := by
    split_ifs with hShape
    · rintro _ ⟨⟩
      exact hCurve hShape
    · exact nofun
  refine .append (.append (.cons ⟨hArity, hLine⟩ .nil) ?_) ?_
  · split_ifs
    · exact .cons (hHead _ _) .nil
    · exact .nil
  · split_ifs
    · exact .cons (hHead _ _) .nil
    · exact .nil

theorem presentable_edge {path : EdgePath K}
    (hCurve : path.spec.style.shape.isCurve = true → path.points.length = 4)
    (h : edge styles path = .ok drawn) : AllPresentable drawn := by
  rw [edge] at h
  split at h
  · cases h
    exact presentable_edgeLine hCurve
  · obtain ⟨strip, hStrip, h⟩ := bind_eq_ok_iff.mp h
    cases h
    exact (presentable_edgeLine hCurve).append (presentable_edgeLabel hStrip)

omit [Mul K] [Div K] [BEq K] in
theorem presentable_unresolvedEdge (styles : Styles K) (result : EdgeResult K) :
    AllPresentable (unresolvedEdge styles result) := by
  cases result with
  | resolved path => exact .nil
  | broken broken =>
      intro p hp
      obtain ⟨a, -, rfl⟩ := List.mem_map.mp hp
      exact ⟨by rintro _ ⟨⟩; rfl, styles.plain_stroked _⟩

omit [BEq K] in
/-- A curve has its four points between any two anchors. -/
theorem length_points_of_ofSpec {r : Registry K} {e : EdgeSpec} {path : EdgePath K}
    (h : EdgeResult.ofSpec r e = .ok (.resolved path))
    (hCurve : path.spec.style.shape.isCurve = true) : path.points.length = 4 := by
  rw [EdgeResult.ofSpec] at h
  split at h
  · obtain ⟨own, hOwn, h⟩ := bind_eq_ok_iff.mp h
    cases h
    obtain ⟨course, hCourse, hOwn⟩ := bind_eq_ok_iff.mp hOwn
    obtain ⟨_, -, hCourse⟩ := bind_eq_ok_iff.mp hCourse
    cases hOwn
    cases hCourse
    dsimp only at hCurve ⊢
    cases hShape : e.style.shape <;> rw [hShape] at hCurve
    all_goals first | rfl | cases hCurve
  · cases h

/-- All that is drawn can be presented. -/
theorem presentable_of_emit {l : Layout K} {r : Registry K} {specs : List EdgeSpec}
    {edges : List (EdgeResult K)} {o : Options K}
    (hEdges : specs.mapM (EdgeResult.ofSpec r) = .ok edges) (h : emit l edges o = .ok drawn) :
    AllPresentable drawn := by
  obtain ⟨styles, head, lanes, foot, lines, -, hHead, hLanes, hFoot, hLines, rfl⟩ := of_emit h
  refine .append (.append (.append (.append (presentable_caption hHead) ?_)
    (presentable_caption hFoot)) ?_) ?_
  · exact .of_mapM (fun _ _ => presentable_placed) hLanes
  · intro p hp
    obtain ⟨part, hPart, hp⟩ := List.mem_flatten.mp hp
    obtain ⟨result, hResult, hDrawn⟩ := exists_of_mem_forall₂ (forall₂_of_mapM hLines) hPart
    cases result with
    | broken broken =>
        cases hDrawn
        cases hp
    | resolved path =>
        obtain ⟨spec, -, hSpec⟩ := exists_of_mem_forall₂ (forall₂_of_mapM hEdges) hResult
        exact presentable_edge (length_points_of_ofSpec hSpec) hDrawn p hp
  · intro p hp
    obtain ⟨result, -, hp⟩ := List.mem_flatMap.mp hp
    exact presentable_unresolvedEdge styles result p hp

end Figure

/-- Whatever is rendered can be presented. -/
theorem Description.presentable_of_render {K : Type} [Add K] [Sub K] [Mul K] [Div K] [LT K] [LE K]
    [DecidableLT K] [DecidableLE K] [Max K] [Min K] [BEq K] [Scalar K] {description : Description K}
    {options : Option (Options K)} {d : Diagram K}
    (h : (description.render options).outcome = .ok d) : AllPresentable d.primitives := by
  rw [Description.render, Logged.outcome_bind] at h
  obtain ⟨document, -, h⟩ := bind_eq_ok_iff.mp h
  obtain ⟨items, l, edges, -, -, hEdges, hPrimitives, -⟩ := Document.of_render h
  exact Figure.presentable_of_emit hEdges hPrimitives

end TimingDiagram
