import TimingDiagram.Figure.Diagram
import TimingDiagram.Markup.Element

/-! SVG: a figure as a root element that holds the hatch pattern and one element for
each primitive, in order. -/
namespace TimingDiagram
namespace Svg

variable {K : Type} [Add K] [Sub K] [Mul K] [Div K] [LT K] [LE K] [DecidableLT K] [DecidableLE K]
  [Max K] [Min K] [BEq K] [Scalar K]

def leaf (name : String) (attributes : List (String × String)) : Element :=
  .node name attributes "" []

def hatchSize : String := "6"

/-- The text of an attribute. What is null has none. -/
def attributeText (value : Value) : String := if value.isNull then "" else value.plain

def attributes (style : Style) : List (String × String) :=
  style.map fun (key, value) => (key, attributeText value)

/-- The pattern that fills undefined boxes: a blank tile with a diagonal. -/
def hatch (color : Value) : Element :=
  .node "pattern"
    [("id", hatchId), ("x", "0"), ("y", "0"), ("width", hatchSize), ("height", hatchSize),
      ("patternUnits", "userSpaceOnUse")] ""
    [leaf "rect" [("x", "0"), ("y", "0"), ("width", hatchSize), ("height", hatchSize),
        ("fill", "#FFFFFF")],
      leaf "line" [("x1", "0"), ("y1", hatchSize), ("x2", hatchSize), ("y2", "0"),
        ("stroke", attributeText color), ("stroke-width", "1")]]

/-- A point with its coordinates in full. -/
def fullPoint (p : Point K) : String := Scalar.text p.x ++ "," ++ Scalar.text p.y

/-- A point with compact coordinates. -/
def compactPoint (p : Point K) : Except Fault String := do
  return (← Styles.numeral p.x) ++ "," ++ (← Styles.numeral p.y)

def vertices (points : List (Point K)) : String := " ".intercalate (points.map fullPoint)

/-- A point with its coordinates as fractions. -/
def fractional (p : Point K) : Except Fault (Point K) := do
  return ⟨← Scalar.checked (Scalar.toFraction p.x), ← Scalar.checked (Scalar.toFraction p.y)⟩

/-- The element of a primitive. A rectangle needs two points, a curve four, and a text its
first one. -/
def element (p : Primitive K) : Except Fault Element := do
  let points ← p.points.mapM fractional
  let style := attributes p.attrs
  match p.kind, points with
  | .rect, [a, b] =>
    return leaf "rect" (style ++ [("x", Scalar.text a.x), ("y", Scalar.text a.y),
      ("width", Scalar.text (b.x - a.x)), ("height", Scalar.text (b.y - a.y))])
  | .rect, _ => throw .badValue
  | .bezier, [a, b, c, d] =>
    let path := "M" ++ (← compactPoint a) ++ " C" ++ (← compactPoint b) ++ " " ++
      (← compactPoint c) ++ " " ++ (← compactPoint d)
    return leaf "path" (style ++ [("d", path)])
  | .bezier, _ => throw .badValue
  | .text, a :: _ =>
    return .node "text" (style ++ [("x", Scalar.text a.x), ("y", Scalar.text a.y)])
      (p.text.getD "") []
  | .text, [] => throw .outOfRange
  | _, points =>
    return leaf (if p.closed then "polygon" else "polyline")
      (style ++ [("points", vertices points)])

def rootAttributes (width height : String) : List (String × String) :=
  [("baseProfile", "full"), ("version", "1.1"), ("width", width), ("height", height),
    ("viewBox", "0,0," ++ width ++ "," ++ height), ("xmlns", "http://www.w3.org/2000/svg"),
    ("xmlns:ev", "http://www.w3.org/2001/xml-events"),
    ("xmlns:xlink", "http://www.w3.org/1999/xlink")]

/-- The colour of the hatch pattern: that of given options, or of those the figure was
laid out with, or the default one. -/
def hatchColor (d : Diagram K) (o : Option (Options K)) : Value :=
  match o, d.layout with
  | some o, _ => o.hatchColor
  | none, some l => l.options.hatchColor
  | none, none => (Options.default : Options K).hatchColor

def root (d : Diagram K) (o : Option (Options K)) : Except Fault Element := do
  let elements ← d.primitives.mapM element
  let defs := Element.node "defs" [] "" [hatch (hatchColor d o)]
  return .node "svg" (rootAttributes (Scalar.text d.width) (Scalar.text d.height)) ""
    (defs :: elements)

def source : String := "wavelane.adapters.svg"

/-- What is told of the markup of a figure: its primitives and its size. -/
def summary (d : Diagram K) : Except Fault Record := do
  return ⟨.debug, source,
    "assembled " ++ toString d.primitives.length ++ " primitives into a " ++
      (← Styles.numeral d.width) ++ "x" ++ (← Styles.numeral d.height) ++ " drawing"⟩

/-- The markup of a figure, told when it is done. -/
def markup (d : Diagram K) (o : Option (Options K)) : Logged String := do
  let e ← (root d o : Except Fault Element)
  Logged.tell (← (summary d : Except Fault Record))
  return e.write

/-- The first line of a file of markup. -/
def declaration : String := "<?xml version=\"1.0\" encoding=\"utf-8\" ?>\n"

/-- The content of a file with the markup of a figure. -/
def file (d : Diagram K) (o : Option (Options K)) : Logged String := do
  return declaration ++ (← markup d o)

/-- The markup of a description. -/
def ofDescription (description : Description K) (options : Option (Options K)) :
    Logged String := do
  let d ← description.render options
  markup d none

end Svg
end TimingDiagram
