import TimingDiagram.Markup.Svg
import TimingDiagram.Proofs.Figure.Presentable
import TimingDiagram.Proofs.Markup.Written
import TimingDiagram.Proofs.Number.Numerals

/-! The markup of figures. It is one root element that holds the hatch pattern and one element for each
primitive, and there is no other way to take it apart, whatever the texts in the figure are. -/
namespace TimingDiagram

/-- A quantity that is a number with a finite double. -/
def Quantity.Finite (a : Quantity) : Prop :=
  ∃ n x d, a.outcome = .ok (.number n) ∧ n.toFloat = .ok x ∧ Binary.read x = .finite d

/-- A figure whose size and whose coordinates are finite. -/
structure Diagram.Finite (d : Diagram Quantity) : Prop where
  width : d.width.Finite
  height : d.height.Finite
  points : ∀ p ∈ d.primitives, ∀ a ∈ p.points, a.x.Finite ∧ a.y.Finite

/-- The name of the element of a primitive. -/
def Primitive.elementName {K : Type} (p : Primitive K) : String :=
  match p.kind with
  | .rect => "rect"
  | .bezier => "path"
  | .text => "text"
  | _ => if p.closed then "polygon" else "polyline"

/-- What is written between the tags of a primitive. -/
def Primitive.content {K : Type} (p : Primitive K) : String :=
  match p.kind with
  | .text => p.text.getD ""
  | _ => ""

namespace Markup

/-- Some pieces are nothing but one text, as its entities stand for. -/
def HoldsText (pieces : List Piece) (text : String) : Prop :=
  pieces = [] ∧ text = "" ∨ ∃ raw, pieces = [.text raw] ∧ unescape raw = text.toList

/-- An element presents a primitive. Each attribute of its style that is not empty is there once, and no
attribute is there but these and the ones that say where the element is. -/
structure Presents (p : Primitive Quantity) (piece : Piece) : Prop where
  name : piece.name = p.elementName.toList
  text : HoldsText piece.inner p.content
  styled : ∀ name value, Value.lookup name p.attrs = some value → Svg.attributeText value ≠ "" →
    ∃ a ∈ piece.attributes, a.name = name.toList ∧ unescape a.raw = (Svg.attributeText value).toList
  known : ∀ a ∈ piece.attributes, ∃ name, a.name = name.toList ∧
    (name ∈ geometryNames ∨ (Value.lookup name p.attrs).isSome = true)
  distinct : (piece.attributes.map Attribute.name).Nodup

/-- An element is the hatch pattern: a tile and a line of some colour, under the name by which boxes are
filled with it. -/
structure IsHatch (color : Value) (piece : Piece) : Prop where
  name : piece.name = "pattern".toList
  id : ∃ a ∈ piece.attributes, a.name = "id".toList ∧ unescape a.raw = hatchId.toList
  inner : ∃ tile line, piece.inner = [tile, line] ∧ tile.name = "rect".toList ∧
    line.name = "line".toList ∧ (Svg.attributeText color ≠ "" → ∃ a ∈ line.attributes,
      a.name = "stroke".toList ∧ unescape a.raw = (Svg.attributeText color).toList)

/-- A piece is the root element of a figure. -/
structure IsFigure (d : Diagram Quantity) (color : Value) (root : Piece) : Prop where
  name : root.name = "svg".toList
  inner : ∃ defs pattern figures, root.inner = defs :: figures ∧ defs.name = "defs".toList ∧
    defs.inner = [pattern] ∧ IsHatch color pattern ∧ List.Forall₂ Presents d.primitives figures

end Markup

namespace Quantity

/-- A finite quantity is a double, held as a fraction. -/
theorem Finite.toFraction {a : Quantity} (h : a.Finite) :
    ∃ x d, a.toFraction = known (.real x) ∧ Binary.read x = .finite d := by
  obtain ⟨n, x, d, hOutcome, hFloat, hRead⟩ := h
  refine ⟨x, d, ?_, hRead⟩
  have hFraction : (do return Value.number (.real (← (← a.outcome).asFraction)) : Except Fault Value) =
      .ok (.number (.real x)) := by
    rw [hOutcome]
    change (do return Value.number (.real (← n.toFloat)) : Except Fault Value) = _
    rw [hFloat]
    rfl
  exact congrArg Quantity.mk hFraction

/-- A finite quantity has a numeral. -/
theorem Finite.numeral [Memory] {a : Quantity} (h : a.Finite) : Succeeds (Styles.numeral a) := by
  obtain ⟨n, x, d, hOutcome, hFloat, hRead⟩ := h
  have hKnown : a = known n := congrArg Quantity.mk hOutcome
  rw [hKnown]
  exact ⟨_, Styles.numeral_eq hFloat hRead⟩

end Quantity

namespace Svg

/-- A finite point has its coordinates as fractions, and these have numerals. -/
theorem fractional_of_finite [Memory] {a : Point Quantity} (hx : a.x.Finite) (hy : a.y.Finite) :
    ∃ b, fractional a = .ok b ∧ Succeeds (compactPoint b) := by
  obtain ⟨x, d, hx, hxRead⟩ := hx.toFraction
  obtain ⟨y, e, hy, hyRead⟩ := hy.toFraction
  have hFractional : fractional a = .ok ⟨Quantity.known (.real x), Quantity.known (.real y)⟩ := by
    change (do return ⟨← Scalar.checked a.x.toFraction, ← Scalar.checked a.y.toFraction⟩ :
      Except Fault (Point Quantity)) = _
    rw [hx, hy]
    rfl
  refine ⟨_, hFractional, ?_⟩
  rw [compactPoint, Styles.numeral_eq rfl hxRead, Styles.numeral_eq rfl hyRead]
  exact succeeds_ok _

theorem exists_fractionals [Memory] {points : List (Point Quantity)}
    (hFinite : ∀ a ∈ points, a.x.Finite ∧ a.y.Finite) :
    ∃ fractions, points.mapM fractional = .ok fractions ∧ fractions.length = points.length ∧
      ∀ b ∈ fractions, Succeeds (compactPoint b) := by
  have hPoint : ∀ a ∈ points, Succeeds (fractional a) := fun a ha => by
    obtain ⟨b, hb, -⟩ := fractional_of_finite (hFinite a ha).1 (hFinite a ha).2
    exact ⟨b, hb⟩
  obtain ⟨fractions, hFractions⟩ := Succeeds.mapM hPoint
  have hPairs := forall₂_of_mapM hFractions
  refine ⟨fractions, hFractions, hPairs.length_eq.symm, fun b hb => ?_⟩
  obtain ⟨a, ha, hab⟩ := exists_of_mem_forall₂ hPairs hb
  obtain ⟨c, hc, hNumeral⟩ := fractional_of_finite (hFinite a ha).1 (hFinite a ha).2
  obtain rfl : c = b := Except.ok.inj (hc.symm.trans hab)
  exact hNumeral

/-- Some attributes that say where an element is. -/
def IsGeometry (attributes : List (String × String)) : Prop :=
  (attributes.map Prod.fst).Nodup ∧ attributes.map Prod.fst ⊆ geometryNames

/-- A primitive that can be presented has an element with its name, its style and its content. -/
theorem element_of_presentable [Memory] {p : Primitive Quantity} (hForm : p.Presentable)
    (hFinite : ∀ a ∈ p.points, a.x.Finite ∧ a.y.Finite) :
    ∃ geometry, IsGeometry geometry ∧
      element p = .ok (.node p.elementName (attributes p.attrs ++ geometry) p.content []) := by
  obtain ⟨points, hPoints, hLength, hNumerals⟩ := exists_fractionals hFinite
  have hArity := hForm.arity
  rw [← hLength] at hArity
  have hCorner : ["x", "y"].Nodup ∧ ["x", "y"] ⊆ geometryNames := by decide
  have hSize : ["x", "y", "width", "height"].Nodup ∧
      ["x", "y", "width", "height"] ⊆ geometryNames := by decide
  have hPath : ["d"].Nodup ∧ ["d"] ⊆ geometryNames := by decide
  have hVertices : ["points"].Nodup ∧ ["points"] ⊆ geometryNames := by decide
  rw [element, hPoints, ok_bind, Primitive.elementName, Primitive.content]
  cases hKind : p.kind with
  | rect =>
      obtain ⟨a, b, rfl⟩ := List.length_eq_two.mp (hArity 2 (by rw [hKind]; rfl))
      refine ⟨_, ?_, rfl⟩
      exact hSize
  | bezier =>
      match points, hArity 4 (by rw [hKind]; rfl) with
      | [a, b, c, d], _ =>
        obtain ⟨ta, ha⟩ := hNumerals a (by simp)
        obtain ⟨tb, hb⟩ := hNumerals b (by simp)
        obtain ⟨tc, hc⟩ := hNumerals c (by simp)
        obtain ⟨td, hd⟩ := hNumerals d (by simp)
        dsimp only
        rw [ha, hb, hc, hd]
        refine ⟨_, ?_, rfl⟩
        exact hPath
  | text =>
      obtain ⟨a, rfl⟩ := List.length_eq_one_iff.mp (hArity 1 (by rw [hKind]; rfl))
      refine ⟨_, ?_, rfl⟩
      exact hCorner
  | polyline =>
      refine ⟨_, ?_, rfl⟩
      exact hVertices
  | bracket =>
      refine ⟨_, ?_, rfl⟩
      exact hVertices

end Svg

namespace Markup

open Element

theorem holdsText_textPieces (text : String) : HoldsText (textPieces text) text := by
  rw [textPieces]
  split_ifs with h
  · exact .inl ⟨rfl, String.isEmpty_iff.mp h⟩
  · exact .inr ⟨_, rfl, unescape_escapeText text⟩

/-- The element of a primitive is written as a piece that presents it. -/
theorem presents_piece {p : Primitive Quantity} (h : p.Presentable)
    {geometry : List (String × String)} (hGeometry : Svg.IsGeometry geometry) :
    Presents p (piece (.node p.elementName (Svg.attributes p.attrs ++ geometry) p.content [])) := by
  obtain ⟨hName, hAttributes, hInner⟩ := piece_parts p.elementName
    (Svg.attributes p.attrs ++ geometry) p.content []
  obtain ⟨hDistinct, hStyle⟩ := h.attrs
  have hKeys : (Svg.attributes p.attrs).map Prod.fst = p.attrs.map Prod.fst := by
    rw [Svg.attributes, List.map_map]
    rfl
  refine ⟨hName, ?_, ?_, ?_, ?_⟩
  · rw [hInner, pieces, List.append_nil]
    exact holdsText_textPieces p.content
  · intro name value hLookup hSome
    have hMem := List.mem_map_of_mem (f := fun entry : String × Value =>
      (entry.1, Svg.attributeText entry.2)) (Value.mem_of_lookup hLookup)
    rw [hAttributes]
    exact exists_spelled (List.mem_append_left _ hMem) hSome
  · intro a ha
    rw [hAttributes] at ha
    obtain ⟨entry, hEntry, -, rfl⟩ := mem_spelled.mp ha
    refine ⟨entry.1, rfl, ?_⟩
    rcases List.mem_append.mp hEntry with hOwn | hPlace
    · obtain ⟨⟨name, value⟩, hMem, rfl⟩ := List.mem_map.mp hOwn
      exact .inr (by rw [Value.lookup_of_mem hDistinct hMem]; rfl)
    · exact .inl (hGeometry.2 (List.mem_map_of_mem hPlace))
  · rw [hAttributes]
    apply nodup_names_spelled
    rw [List.map_append, hKeys, List.nodup_append]
    refine ⟨hDistinct, hGeometry.1, fun name hOwn other hPlace => ?_⟩
    rintro rfl
    have hFree := hStyle name hOwn
    simp only [isStyleName, Bool.and_eq_true, decide_eq_true_iff] at hFree
    exact hFree.1.1.2 (hGeometry.2 hPlace)

end Markup

namespace Svg

open Markup Element

theorem named_element {p : Primitive Quantity} (h : p.Presentable)
    {geometry : List (String × String)} (hGeometry : IsGeometry geometry) :
    (Element.node p.elementName (attributes p.attrs ++ geometry) p.content []).Named := by
  have hName : isName p.elementName = true := by
    rw [Primitive.elementName]
    cases p.kind <;> cases p.closed <;> decide
  have hPlaces : geometryNames.all isName = true := by decide
  refine named_node hName (List.all_eq_true.mpr fun name hMem => ?_) trivial
  rw [List.map_append, List.mem_append] at hMem
  rcases hMem with hOwn | hPlace
  · rw [attributes, List.map_map] at hOwn
    have hFree := h.attrs.2 name hOwn
    simp only [isStyleName, Bool.and_eq_true] at hFree
    exact hFree.1.1.1
  · exact List.all_eq_true.mp hPlaces name (hGeometry.2 hPlace)

/-- The elements of primitives that can be presented are written as pieces that present them. -/
theorem elements_of_presentable [Memory] {ps : List (Primitive Quantity)} (hForm : AllPresentable ps)
    (hFinite : ∀ p ∈ ps, ∀ a ∈ p.points, a.x.Finite ∧ a.y.Finite) :
    ∃ es, ps.mapM element = .ok es ∧ NamedAll es ∧ List.Forall₂ Presents ps (pieces es) := by
  induction ps with
  | nil => exact ⟨[], rfl, trivial, .nil⟩
  | cons p ps ih =>
      obtain ⟨geometry, hGeometry, hElement⟩ := element_of_presentable (hForm p List.mem_cons_self)
        (hFinite p List.mem_cons_self)
      obtain ⟨es, hes, hNamed, hPresents⟩ := ih (fun q hq => hForm q (List.mem_cons_of_mem p hq))
        (fun q hq => hFinite q (List.mem_cons_of_mem p hq))
      refine ⟨_ :: es, by rw [List.mapM_cons, hElement, hes]; rfl, ⟨?_, hNamed⟩,
        .cons (presents_piece (hForm p List.mem_cons_self) hGeometry) hPresents⟩
      exact named_element (hForm p List.mem_cons_self) hGeometry

theorem named_hatch (color : Value) : (hatch color).Named := by
  have hLine : ["x1", "y1", "x2", "y2", "stroke", "stroke-width"].all isName = true := by decide
  exact named_node (by decide) (by decide)
    ⟨named_node (by decide) (by decide) trivial, named_node (by decide) hLine trivial, trivial⟩

theorem named_root {width height : String} {color : Value} {es : List Element} (h : NamedAll es) :
    (Element.node "svg" (rootAttributes width height) ""
      (.node "defs" [] "" [hatch color] :: es)).Named := by
  have hRoot : ["baseProfile", "version", "width", "height", "viewBox", "xmlns", "xmlns:ev",
      "xmlns:xlink"].all isName = true := by decide
  exact named_node (by decide) hRoot
    ⟨named_node (by decide) rfl ⟨named_hatch color, trivial⟩, h⟩

theorem isHatch_piece (color : Value) : IsHatch color (hatch color).piece := by
  obtain ⟨tile, hTile⟩ : ∃ tile, tile = leaf "rect" [("x", "0"), ("y", "0"), ("width", hatchSize),
    ("height", hatchSize), ("fill", "#FFFFFF")] := ⟨_, rfl⟩
  obtain ⟨strokes, hStrokes⟩ : ∃ strokes, strokes = [("x1", "0"), ("y1", hatchSize),
    ("x2", hatchSize), ("y2", "0"), ("stroke", attributeText color), ("stroke-width", "1")] :=
    ⟨_, rfl⟩
  obtain ⟨places, hPlaces⟩ : ∃ places, places = [("id", hatchId), ("x", "0"), ("y", "0"),
    ("width", hatchSize), ("height", hatchSize), ("patternUnits", "userSpaceOnUse")] := ⟨_, rfl⟩
  have hHatch : hatch color = .node "pattern" places "" [tile, leaf "line" strokes] := by
    rw [hTile, hStrokes, hPlaces]
    rfl
  obtain ⟨hName, hAttributes, hInner⟩ := piece_parts "pattern" places "" [tile, leaf "line" strokes]
  obtain ⟨hLine, hLineAttributes, -⟩ := piece_parts "line" strokes "" []
  rw [hHatch]
  refine ⟨hName, ?_, tile.piece, (leaf "line" strokes).piece, hInner, ?_, hLine, fun hSome => ?_⟩
  · rw [hAttributes]
    exact exists_spelled (by simp [hPlaces]) (by decide)
  · rw [hTile]
    exact (piece_parts "rect" _ "" []).1
  · rw [leaf, hLineAttributes]
    exact exists_spelled (by simp [hStrokes]) hSome

theorem outcome_markup [Memory] {d : Diagram Quantity} {o : Option (Options Quantity)} {e : Element}
    (h : root d o = .ok e) (hWidth : d.width.Finite) (hHeight : d.height.Finite) :
    (markup d o).outcome = .ok e.write := by
  obtain ⟨width, hWidth⟩ := hWidth.numeral
  obtain ⟨height, hHeight⟩ := hHeight.numeral
  obtain ⟨record, hRecord⟩ : ∃ record, summary d = .ok record := by
    rw [summary, hWidth, hHeight]
    exact ⟨_, rfl⟩
  rw [markup, h, hRecord]
  rfl

/-- The markup of a figure with finite coordinates can be taken apart in one way, which is as the root
element of the figure. This holds of every figure whose primitives have the points of their forms and
names of styles, and a rendered figure has only such primitives. -/
theorem markup_splits [Memory] :
    (∀ (d : Diagram Quantity) (o : Option (Options Quantity)),
      AllPresentable d.primitives → d.Finite →
      ∃ text root, (markup d o).outcome = .ok text ∧ root.WellFormed ∧ root.spell = text.toList ∧
        (∀ other : Piece, other.WellFormed → other.spell = text.toList → other = root) ∧
        IsFigure d (hatchColor d o) root) ∧
    ∀ (description : Description Quantity) (options : Option (Options Quantity))
      (d : Diagram Quantity), (description.render options).outcome = .ok d →
      AllPresentable d.primitives := by
  refine ⟨fun d o hForm hFinite => ?_, fun _ _ _ => Description.presentable_of_render⟩
  obtain ⟨es, hes, hNamed, hPresents⟩ := elements_of_presentable hForm hFinite.points
  have hRoot : root d o = .ok (.node "svg"
      (rootAttributes (Scalar.text d.width) (Scalar.text d.height)) ""
      (.node "defs" [] "" [hatch (hatchColor d o)] :: es)) := by
    rw [root, hes]
    rfl
  obtain ⟨e, he⟩ : ∃ e, e = Element.node "svg"
      (rootAttributes (Scalar.text d.width) (Scalar.text d.height)) ""
      (.node "defs" [] "" [hatch (hatchColor d o)] :: es) := ⟨_, rfl⟩
  have hWellFormed : e.piece.WellFormed := he ▸ wellFormed_piece _ (named_root hNamed)
  rw [← he] at hRoot
  refine ⟨e.write, e.piece, outcome_markup hRoot hFinite.width hFinite.height, hWellFormed,
    spell_piece e, fun other hOther hSpell => ?_, ?_⟩
  · exact Piece.spell_inj hOther hWellFormed (hSpell.trans (spell_piece e).symm)
  · obtain ⟨hName, -, hInner⟩ := piece_parts "svg"
      (rootAttributes (Scalar.text d.width) (Scalar.text d.height)) ""
      (.node "defs" [] "" [hatch (hatchColor d o)] :: es)
    obtain ⟨hDefs, -, hPattern⟩ := piece_parts "defs" [] "" [hatch (hatchColor d o)]
    rw [he]
    exact ⟨hName, _, _, _, hInner, hDefs, hPattern, isHatch_piece _, hPresents⟩

/-- A figure of one text that closes its element, in a colour that closes its attribute. -/
def injected : Diagram Quantity :=
  ⟨[.label ⟨.known (.whole 2), .known (.whole 1)⟩ "</text><script>&amp;"
    [("fill", .text "red\x22 onload=\x22")] .label], .known (.whole 4), .known (.whole 2), [], none⟩

theorem markup_splits_injected :
    AllPresentable injected.primitives ∧ injected.Finite ∧
      ∃ text root, (markup injected none).outcome = .ok text ∧ root.WellFormed ∧
        root.spell = text.toList ∧
        (∀ other : Piece, other.WellFormed → other.spell = text.toList → other = root) ∧
        IsFigure injected (hatchColor injected none) root := by
  have hFour : (Quantity.known (.whole 4)).Finite :=
    ⟨_, Number.nearest 4, ⟨false, 2 ^ 52, -50⟩, rfl, rfl, rfl⟩
  have hTwo : (Quantity.known (.whole 2)).Finite :=
    ⟨_, Number.nearest 2, ⟨false, 2 ^ 52, -51⟩, rfl, rfl, rfl⟩
  have hOne : (Quantity.known (.whole 1)).Finite :=
    ⟨_, Number.nearest 1, ⟨false, 2 ^ 52, -52⟩, rfl, rfl, rfl⟩
  have hForm : AllPresentable injected.primitives :=
    .cons (Primitive.presentable_label (List.forall_mem_singleton.mpr (by decide))) .nil
  have hFinite : injected.Finite :=
    ⟨hFour, hTwo, List.forall_mem_singleton.mpr (List.forall_mem_singleton.mpr ⟨hTwo, hOne⟩)⟩
  exact ⟨hForm, hFinite, markup_splits.1 injected none hForm hFinite⟩

end Svg
end TimingDiagram
