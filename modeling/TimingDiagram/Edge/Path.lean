import TimingDiagram.Edge.Registry
import TimingDiagram.Edge.Spec
import TimingDiagram.Log.Record
import TimingDiagram.Number.Scalar

/-! The course of an edge between two anchors, and the resolution of declared edges.
An edge whose anchor is missing is left out with a warning; the others are not
affected. -/
namespace TimingDiagram

/-- An edge between two points of the figure. -/
structure EdgePath (K : Type) where
  spec : EdgeSpec
  source : Anchor K
  target : Anchor K
  /-- The vertices of a polyline, or the four control points of a curve. -/
  points : List (Point K)
  labelAt : Point K

/-- An edge that could not be resolved, with the anchors it names that exist. -/
structure BrokenEdge (K : Type) where
  spec : EdgeSpec
  missing : UnknownAnchor
  known : List (Anchor K)

/-- What became of a declared edge. -/
inductive EdgeResult (K : Type) where
  | resolved (path : EdgePath K)
  | broken (edge : BrokenEdge K)

namespace EdgePath

variable {K : Type} [Add K] [Sub K] [Mul K] [Div K] [Scalar K]

/-- A coordinate of a cubic curve at a parameter. -/
def cubic (a b c d t : K) : K :=
  let one : K := Scalar.whole 1
  let three : K := Scalar.whole 3
  let u := one - t
  u * u * u * a + three * u * u * t * b + three * u * t * t * c + t * t * t * d

def cubicPoint (a b c d : Point K) (t : K) : Point K :=
  ⟨cubic a.x b.x c.x d.x t, cubic a.y b.y c.y d.y t⟩

/-- A curve with its label at the middle parameter. -/
def curve (a b c d : Point K) : List (Point K) × Point K :=
  ([a, b, c, d], cubicPoint a b c d (Scalar.fraction 1 2))

/-- The points of a shape between two anchors and the place of its label. An orthogonal
edge bends half way along, or half way up when its anchors are in one cycle. -/
def geometry (shape : EdgeShape) (source target : Anchor K) : List (Point K) × Point K :=
  let x₁ := source.x
  let y₁ := source.y
  let x₂ := target.x
  let y₂ := target.y
  let two : K := Scalar.whole 2
  let dx := x₂ - x₁
  let xm := (x₁ + x₂) / two
  let ym := (y₁ + y₂) / two
  let leave : K := x₁ + Scalar.fraction 7 10 * dx
  let arrive : K := x₁ + Scalar.fraction 3 10 * dx
  match shape with
  | .straight => ([⟨x₁, y₁⟩, ⟨x₂, y₂⟩], ⟨xm, ym⟩)
  | .orthogonal =>
    if source.cycle = target.cycle then
      ([⟨x₁, y₁⟩, ⟨x₁, ym⟩, ⟨x₂, ym⟩, ⟨x₂, y₂⟩], ⟨xm, ym⟩)
    else ([⟨x₁, y₁⟩, ⟨xm, y₁⟩, ⟨xm, y₂⟩, ⟨x₂, y₂⟩], ⟨xm, ym⟩)
  | .horizontalVertical => ([⟨x₁, y₁⟩, ⟨x₂, y₁⟩, ⟨x₂, y₂⟩], ⟨x₂, y₁⟩)
  | .verticalHorizontal => ([⟨x₁, y₁⟩, ⟨x₁, y₂⟩, ⟨x₂, y₂⟩], ⟨x₁, y₂⟩)
  | .curved => curve ⟨x₁, y₁⟩ ⟨leave, y₁⟩ ⟨arrive, y₂⟩ ⟨x₂, y₂⟩
  | .curvedStart => curve ⟨x₁, y₁⟩ ⟨leave, y₁⟩ ⟨x₂, y₂⟩ ⟨x₂, y₂⟩
  | .curvedEnd => curve ⟨x₁, y₁⟩ ⟨x₁, y₁⟩ ⟨arrive, y₂⟩ ⟨x₂, y₂⟩

/-- The difference and the means of two anchors, which every course needs, unless one of
them fails. -/
def checkEnds (source target : Anchor K) : Except Fault Unit := do
  let two : K := Scalar.whole 2
  let _ ← Scalar.allChecked
    [target.x - source.x, (source.x + target.x) / two, (source.y + target.y) / two]

/-- The course between two anchors that can be computed with. -/
def course (shape : EdgeShape) (source target : Anchor K) :
    Except Fault (List (Point K) × Point K) := do
  checkEnds source target
  return geometry shape source target

/-- The first point that differs from the tip, or the last point when all agree. -/
def reference [BEq K] (tip : Point K) : List (Point K) → Point K
  | [] => tip
  | [p] => p
  | p :: rest => if p == tip then reference tip rest else p

/-- The first point and the one it is seen from. -/
def startEnds [BEq K] (points : List (Point K)) (default : Point K) : Point K × Point K :=
  let tip := points.headD default
  (tip, reference tip points.tail)

def stopEnds [BEq K] (points : List (Point K)) (default : Point K) : Point K × Point K :=
  startEnds points.reverse default

def direction (ends : Point K × Point K) : K :=
  Scalar.angle (ends.1.y - ends.2.y) (ends.1.x - ends.2.x)

/-- The direction in which the arrowhead at the start points. -/
def startAngle [BEq K] (path : EdgePath K) : K :=
  direction (startEnds path.points path.source.point)

/-- The direction in which the arrowhead at the end points. -/
def stopAngle [BEq K] (path : EdgePath K) : K :=
  direction (stopEnds path.points path.target.point)

/-- The anchors of a declared edge. The source is looked up first. -/
def ends (spec : EdgeSpec) (registry : Registry K) :
    Except UnknownAnchor (Anchor K × Anchor K) := do
  let source ← registry.lookup spec.source spec.print
  let target ← registry.lookup spec.target spec.print
  return (source, target)

def between (spec : EdgeSpec) (source target : Anchor K) : Except Fault (EdgePath K) := do
  let (points, labelAt) ← course spec.style.shape source target
  return ⟨spec, source, target, points, labelAt⟩

/-- The path of a declared edge. -/
def resolve (spec : EdgeSpec) (registry : Registry K) : Except Error (EdgePath K) := do
  let (source, target) ← (ends spec registry).mapError .unknownAnchor
  between spec source target

end EdgePath

namespace EdgeResult

variable {K : Type} [Add K] [Sub K] [Mul K] [Div K] [Scalar K]

/-- The outcome of one declared edge. -/
def ofSpec (registry : Registry K) (spec : EdgeSpec) : Except Fault (EdgeResult K) :=
  match EdgePath.ends spec registry with
  | .ok (source, target) => do return .resolved (← EdgePath.between spec source target)
  | .error missing =>
    let known := [registry.find? spec.source, registry.find? spec.target].filterMap id
    .ok (.broken ⟨spec, missing, known⟩)

def warning? : EdgeResult K → Option UnknownAnchor
  | resolved _ => none
  | broken edge => some edge.missing

def source : String := "wavelane.figure.edges"

/-- What is told of an edge: a warning when it is broken. -/
def records : EdgeResult K → List Record
  | resolved _ => []
  | broken edge =>
    [⟨.warning, source, "unresolved edge " ++ edge.spec.print ++ ": " ++ edge.missing.message⟩]

end EdgeResult
end TimingDiagram
