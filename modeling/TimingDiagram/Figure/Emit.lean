import TimingDiagram.Figure.Waveform

/-! The primitives of a figure in drawing order: head, brackets and signals in document
order, foot, resolved edges, and marks for the edges that could not be resolved. -/
namespace TimingDiagram
namespace Figure

variable {K : Type} [Add K] [Sub K] [Mul K] [Div K] [LT K] [LE K] [DecidableLT K] [DecidableLE K]
  [BEq K] [Scalar K]

def caption (styles : Styles K) (note : Option (PlacedCaption K)) :
    Except Fault (List (Primitive K)) :=
  match note with
  | none => .ok []
  | some note => do
    let title ← note.title.toList.mapM fun t => do
      return .label t.point t.text (← styles.centred [Styles.entry "font-weight" "bold"]) .title
    let numbers ← note.numbers.mapM fun t => do
      return .label t.point t.text (← styles.centred []) .tick
    return title ++ numbers

/-- A bracket, and its label if there is one to show. -/
def bracket (styles : Styles K) (g : PlacedGroup K) : Except Fault (List (Primitive K)) := do
  let line : Primitive K := ⟨.bracket, g.bracket, none, styles.line, .group, false⟩
  match g.label.filter (fun s => !s.isEmpty) with
  | none => return [line]
  | some text =>
    let x ← Styles.numeral g.labelAt.x
    let y ← Styles.numeral g.labelAt.y
    let turn := Styles.entry "transform" ("rotate(-90 " ++ x ++ " " ++ y ++ ")")
    return [line, .label g.labelAt text (← styles.centred [turn]) .groupLabel]

def signal (styles : Styles K) (s : PlacedSignal K) : Except Fault (List (Primitive K)) := do
  let style ← styles.text "start" .null []
  return .label s.nameAt s.name style .signalName :: (← Lane.waveform styles s)

/-- What is drawn in document order. -/
def placed (styles : Styles K) : Placed K → Except Fault (List (Primitive K))
  | .group g => bracket styles g
  | .signal s => signal styles s

def arrowhead (styles : Styles K) (tip : Point K) (angle : K) : Primitive K :=
  let long : K := Scalar.fraction 8 1
  let wide : K := Scalar.fraction 3 1
  let dx := Scalar.cos angle
  let dy := Scalar.sin angle
  let x := tip.x - long * dx
  let y := tip.y - long * dy
  .shape [⟨x - wide * dy, y + wide * dx⟩, tip, ⟨x + wide * dy, y - wide * dx⟩] styles.arrow .arrow

def edgeLabel (styles : Styles K) (point : Point K) (text : String) :
    Except Fault (List (Primitive K)) := do
  let o := styles.options
  let two : K := Scalar.whole 2
  let halfWidth ← Scalar.checked (o.textWidth text / two + two)
  let halfHeight ← Scalar.checked (o.fontSize / two)
  let corners : List (Point K) :=
    [⟨point.x - halfWidth, point.y - halfHeight⟩, ⟨point.x + halfWidth, point.y + halfHeight⟩]
  let style ← styles.text "middle" o.edgeColor []
  return [⟨.rect, corners, none, Styles.blank, .edgeLabel, false⟩,
    .label point text style .edgeLabel]

/-- The line of an edge and its arrowheads. -/
def edgeLine (styles : Styles K) (path : EdgePath K) : List (Primitive K) :=
  let style := path.spec.style
  let dashes := if style.dashed then [Styles.entry "stroke-dasharray" "4,3"] else []
  let kind := if style.shape.isCurve then PrimitiveKind.bezier else .polyline
  let first := path.points.headD path.source.point
  let last := path.points.getLastD path.target.point
  [⟨kind, path.points, none, styles.edge ++ dashes, .edge, false⟩] ++
  (if style.arrowStart then [arrowhead styles first path.startAngle] else []) ++
  (if style.arrowEnd then [arrowhead styles last path.stopAngle] else [])

/-- A resolved edge with its arrowheads, and its label if there is one to show. -/
def edge (styles : Styles K) (path : EdgePath K) : Except Fault (List (Primitive K)) :=
  match path.spec.label.filter (fun s => !s.isEmpty) with
  | none => .ok (edgeLine styles path)
  | some text => do return edgeLine styles path ++ (← edgeLabel styles path.labelAt text)

/-- The marks of a broken edge, one at each anchor that exists. -/
def brokenEdge (styles : Styles K) (broken : BrokenEdge K) : List (Primitive K) :=
  let s : K := Lane.markerSize
  broken.known.map fun a =>
    ⟨.rect, [⟨a.x - s, a.y - s⟩, ⟨a.x + s, a.y + s⟩], none, styles.unresolved, .unresolved, false⟩

def resolvedEdge (styles : Styles K) : EdgeResult K → Except Fault (List (Primitive K))
  | .resolved path => edge styles path
  | .broken _ => .ok []

/-- The marks of an edge that was not. -/
def unresolvedEdge (styles : Styles K) : EdgeResult K → List (Primitive K)
  | .resolved _ => []
  | .broken broken => brokenEdge styles broken

/-- All primitives of a layout and its edges, in the styles of some options. -/
def emit (l : Layout K) (edges : List (EdgeResult K)) (o : Options K) :
    Except Fault (List (Primitive K)) := do
  let styles ← Styles.ofOptions o
  let head ← caption styles l.head
  let lanes ← l.order.mapM (placed styles)
  let foot ← caption styles l.foot
  let resolved ← edges.mapM (resolvedEdge styles)
  return head ++ lanes.flatten ++ foot ++ resolved.flatten ++
    edges.flatMap (unresolvedEdge styles)

end Figure
end TimingDiagram
