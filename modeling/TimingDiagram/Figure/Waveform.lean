import TimingDiagram.Figure.Primitive
import TimingDiagram.Layout.Placed

/-! Waveforms. Each segment has a body, and adjacent segments meet at a joint: a
vertical step where one of them is sharp, nothing where the later one goes on
seamlessly, and otherwise a crossing as wide as twice the transition offset. -/
namespace TimingDiagram

/-- How the body of a segment ends on one side. -/
structure BodyEnd (K : Type) where
  /-- Where the lines of the body stop. -/
  x : K
  /-- The outline of a box on this side, from top to bottom. -/
  outline : List (Point K)
  /-- Whether the outline is drawn as a line of its own. -/
  stroked : Bool

/-- How two adjacent segments meet. -/
structure Joint (K : Type) where
  /-- The end of the earlier body. -/
  stop : BodyEnd K
  /-- The start of the later body. -/
  start : BodyEnd K
  strokes : List (Primitive K)

/-- What the waveform of a signal depends on. -/
structure Lane (K : Type) where
  styles : Styles K
  top : K
  bottom : K
  middle : K
  height : K
  /-- Half the width of a crossing. -/
  reach : K

namespace Lane

variable {K : Type} [Add K] [Sub K] [Mul K] [Div K] [BEq K] [Scalar K]

def ofSignal (styles : Styles K) (s : PlacedSignal K) : Except Fault (Lane K) := do
  let h := styles.options.waveHeight
  let bottom ← Scalar.checked (s.y + h)
  let middle ← Scalar.checked (s.y + h / Scalar.whole 2)
  return ⟨styles, s.y, bottom, middle, h, styles.options.transitionOffset⟩

/-- The height of a level in the lane. -/
def levelY (l : Lane K) (level : Level) : K := l.top + level.depth * l.height

/-- The height at which the line of a segment starts, if it is a line. -/
def entryY (l : Lane K) (p : PlacedSegment K) : Option K :=
  match p.segment.kind with
  | .level => p.segment.level.map l.levelY
  | .clock => p.pulses.head?.map fun pulse => l.levelY pulse.level
  | _ => none

/-- The height at which the line of a segment ends, if it is a line. -/
def exitY (l : Lane K) (p : PlacedSegment K) : Option K :=
  match p.segment.kind with
  | .level => p.segment.level.map l.levelY
  | .clock => p.pulses.getLast?.map fun pulse => l.levelY pulse.level
  | _ => none

/-- Whether a box goes on in the next one without a boundary. -/
def seamless (a b : Segment) : Bool :=
  a.kind = b.kind && a.isBox && (a.kind = .gap || (b.continuation && a.color = b.color))

/-- A body end at a vertical. -/
def upright (l : Lane K) (x : K) (stroked : Bool) : BodyEnd K :=
  ⟨x, [⟨x, l.top⟩, ⟨x, l.bottom⟩], stroked⟩

/-- A body end at a corner between top and bottom. -/
def pointed (l : Lane K) (x tipX tipY : K) : BodyEnd K :=
  ⟨x, [⟨x, l.top⟩, ⟨tipX, tipY⟩, ⟨x, l.bottom⟩], false⟩

/-- A vertical step between two lines of different height. -/
def step (l : Lane K) (x : K) (before after : Option K) : List (Primitive K) :=
  match before, after with
  | some ya, some yb =>
    if ya == yb then [] else [.line [⟨x, ya⟩, ⟨x, yb⟩] l.styles.line .transition]
  | _, _ => []

/-- A crossing between two lines: curved when one of them is at the middle level. -/
def slope (l : Lane K) (a b : PlacedSegment K) (x ya yb : K) : Primitive K :=
  let left := x - l.reach
  let right := x + l.reach
  if a.segment.level = some .middle || b.segment.level = some .middle then
    ⟨.bezier, [⟨left, ya⟩, ⟨x, ya⟩, ⟨x, yb⟩, ⟨right, yb⟩], none, l.styles.line, .transition, false⟩
  else .line [⟨left, ya⟩, ⟨right, yb⟩] l.styles.line .transition

/-- The two diagonals between boxes. -/
def cross (l : Lane K) (x : K) : List (Primitive K) :=
  let left := x - l.reach
  let right := x + l.reach
  [.line [⟨left, l.top⟩, ⟨right, l.bottom⟩] l.styles.line .transition,
    .line [⟨left, l.bottom⟩, ⟨right, l.top⟩] l.styles.line .transition]

/-- How two adjacent segments meet. -/
def joint (l : Lane K) (a b : PlacedSegment K) : Joint K :=
  let x := b.x₀
  let left := x - l.reach
  let right := x + l.reach
  let before := l.exitY a
  let after := l.entryY b
  if a.segment.isSharp || b.segment.isSharp then
    ⟨l.upright x before.isNone, l.upright x after.isNone, l.step x before after⟩
  else match before, after with
    | some ya, some yb =>
      if ya == yb then ⟨l.upright x false, l.upright x false, []⟩
      else ⟨l.upright left false, l.upright right false, [l.slope a b x ya yb]⟩
    | some ya, none =>
      let start := l.pointed right left ya
      ⟨l.upright left false, start, [.line start.outline l.styles.line .transition]⟩
    | none, some yb =>
      let stop := l.pointed left right yb
      ⟨stop, l.upright right false, [.line stop.outline l.styles.line .transition]⟩
    | none, none =>
      if seamless a.segment b.segment then ⟨l.upright x false, l.upright x false, []⟩
      else ⟨l.pointed left x l.middle, l.pointed right x l.middle, l.cross x⟩

/-- The end of a body at the start or the end of its signal. -/
def openEnd (l : Lane K) (p : PlacedSegment K) (x : K) : BodyEnd K :=
  l.upright x p.segment.isBox

/-- The points of a pulse train after its first level: two at every turn. -/
def turns (l : Lane K) (level : Level) : List (PlacedPulse K) → List (Point K) × Level
  | [] => ([], level)
  | pulse :: rest =>
    let (points, last) := l.turns pulse.level rest
    (⟨pulse.x, l.levelY level⟩ :: ⟨pulse.x, l.levelY pulse.level⟩ :: points, last)

def clockPoints (l : Lane K) (p : PlacedSegment K) : List (Point K) :=
  match p.pulses with
  | [] => []
  | first :: rest =>
    let (points, last) := l.turns first.level rest
    ⟨p.x₀, l.levelY first.level⟩ :: points ++ [⟨p.x₁, l.levelY last⟩]

/-- The outline of a box: its fill, its two lines, and the ends that are drawn. -/
def boxOutline (l : Lane K) (fill : Value) (start stop : BodyEnd K) : List (Primitive K) :=
  let line := l.styles.line
  let ends := [start, stop].filter BodyEnd.stroked
  [.shape (start.outline.reverse ++ stop.outline) (Styles.filled fill) .fill,
    .line [⟨start.x, l.top⟩, ⟨stop.x, l.top⟩] line .box,
    .line [⟨start.x, l.bottom⟩, ⟨stop.x, l.bottom⟩] line .box] ++
  ends.map fun e => .line e.outline line .box

/-- The label of a box, if it has one to show. -/
def boxLabel (l : Lane K) (seg : Segment) (start stop : BodyEnd K) :
    Except Fault (List (Primitive K)) :=
  match seg.label.filter (fun s => !s.isEmpty) with
  | none => .ok []
  | some text => do
    let centre : Point K := ⟨(start.x + stop.x) / Scalar.whole 2, l.middle⟩
    return [.label centre text (← l.styles.centred []) .label]

/-- The body of a segment between its ends. -/
def body (l : Lane K) (p : PlacedSegment K) (start stop : BodyEnd K) :
    Except Fault (List (Primitive K)) :=
  let seg := p.segment
  match seg.kind with
  | .level =>
    let y := (l.entryY p).getD l.top
    .ok [.line [⟨start.x, y⟩, ⟨stop.x, y⟩] l.styles.line .level]
  | .clock => .ok [.line (l.clockPoints p) l.styles.line .clock]
  | .data => do
    let fill ← l.styles.options.background seg.color
    return l.boxOutline fill start stop ++ (← l.boxLabel seg start stop)
  | .gap => .ok (l.boxOutline (.text ("url(#" ++ hatchId ++ ")")) start stop)

def markerSize : K := Scalar.fraction 3 1

def arrowMarker (l : Lane K) (x : K) (up : Bool) : Primitive K :=
  let s : K := markerSize
  let m := l.middle
  .shape
    (if up then [⟨x - s, m + s⟩, ⟨x, m - s⟩, ⟨x + s, m + s⟩]
    else [⟨x - s, m - s⟩, ⟨x, m + s⟩, ⟨x + s, m - s⟩])
    l.styles.marker .marker

/-- The height at which the segment before ends, if there is one and it is a line. -/
def heightBefore (l : Lane K) (previous : Option (PlacedSegment K)) : Option K :=
  previous.bind l.exitY

/-- The turns of a marked clock that carry an arrow: those to the opening level, but the
first one only where the line before does not end there. -/
def activeTurns (l : Lane K) (p : PlacedSegment K) (previous : Option (PlacedSegment K)) :
    List (PlacedPulse K) :=
  let target := if p.segment.isRising then Level.high else .low
  match p.pulses with
  | [] => []
  | first :: rest =>
    let continued := l.heightBefore previous == some (l.levelY first.level)
    (if continued then rest else first :: rest).filter fun pulse => pulse.level = target

def markers (l : Lane K) (p : PlacedSegment K) (previous : Option (PlacedSegment K)) :
    List (Primitive K) :=
  let seg := p.segment
  if !seg.isMarked then []
  else if seg.kind = .clock then
    (l.activeTurns p previous).map fun pulse => l.arrowMarker pulse.x seg.isRising
  else if previous.isNone || l.heightBefore previous == seg.level.map l.levelY then []
  else [l.arrowMarker p.x₀ (seg.level = some .high)]

def gapSkew : K := Scalar.fraction 4 1

/-- A break across the waveform: a blank strip between two leaning lines. -/
def gapMark (l : Lane K) (x : K) : List (Primitive K) :=
  let s : K := gapSkew
  let one : K := Scalar.whole 1
  let low := l.bottom + Scalar.whole 2
  let high := l.top - Scalar.whole 2
  let a : Point K := ⟨x - s - one, low⟩
  let b : Point K := ⟨x - one + s, high⟩
  let c : Point K := ⟨x - s + one, low⟩
  let d : Point K := ⟨x + one + s, high⟩
  [.shape [a, b, d, c] Styles.blank .gap, .line [a, b] l.styles.line .gap,
    .line [c, d] l.styles.line .gap]

/-- The primitives of some adjacent segments, the first of which starts at `start`. -/
def bodies (l : Lane K) (previous : Option (PlacedSegment K)) (start : BodyEnd K) :
    List (PlacedSegment K) → Except Fault (List (Primitive K))
  | [] => .ok []
  | [p] => do
    return (← l.body p start (l.openEnd p p.x₁)) ++ l.markers p previous
  | p :: q :: rest => do
    let j := l.joint p q
    let own ← l.body p start j.stop
    let others ← l.bodies (some p) j.start (q :: rest)
    return own ++ l.markers p previous ++ j.strokes ++ others

/-- The coordinates of some adjacent segments' joints, unless one of them fails. -/
def checkJoints (l : Lane K) : List (PlacedSegment K) → Except Fault Unit
  | p :: q :: rest => do
    let j := l.joint p q
    let _ ← Scalar.allChecked [j.stop.x, j.start.x]
    l.checkJoints (q :: rest)
  | _ => .ok ()

/-- The waveform of a signal: its segments, then the breaks in them. -/
def waveform (styles : Styles K) (s : PlacedSignal K) : Except Fault (List (Primitive K)) := do
  let l ← ofSignal styles s
  match s.segments with
  | [] => return []
  | first :: _ =>
    l.checkJoints s.segments
    let drawn ← l.bodies none (l.openEnd first first.x₀) s.segments
    return drawn ++ (s.segments.flatMap PlacedSegment.gapMarks).flatMap l.gapMark

end Lane
end TimingDiagram
