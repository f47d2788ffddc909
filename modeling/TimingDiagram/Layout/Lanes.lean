import TimingDiagram.Document.Item
import TimingDiagram.Layout.Placed
import TimingDiagram.Wave.PulseTrain

/-! Placing the lanes. Lanes follow one another from top to bottom in document order; a
group that holds a lane adds a margin above and below and is drawn as a bracket. -/
namespace TimingDiagram

/-- What the placement of a lane depends on. -/
structure Frame (K : Type) where
  options : Options K
  grid : Grid K
  nameX : K
  schemaX : K

/-- The state between two lanes. -/
structure Cursor (K : Type) where
  /-- The top of the next lane. -/
  y : K
  /-- The bottom of the lanes so far, with the margins of the groups that have ended. -/
  extent : K
  slot : Nat

/-- What placing some items gives. -/
structure Block (K : Type) where
  order : List (Placed K)
  groups : List (PlacedGroup K)
  anchors : List (Anchor K)
  lanes : Option (LaneSpan K)

namespace Block

variable {K : Type}

/-- The outcome of placing nothing. -/
def empty : Block K := ⟨[], [], [], none⟩

/-- The outcome of placing one thing after another. -/
def append (a b : Block K) : Block K :=
  ⟨a.order ++ b.order, a.groups ++ b.groups, a.anchors ++ b.anchors, LaneSpan.join a.lanes b.lanes⟩

end Block

namespace Frame

variable {K : Type} [Add K] [Sub K] [Mul K] [Div K] [LT K] [LE K] [DecidableLT K] [DecidableLE K]
  [Scalar K]

/-- The turns of a clock, in place. -/
def placePulses (f : Frame K) (s : Compiled K) (seg : Segment) :
    Except Fault (List (PlacedPulse K)) := do
  if seg.kind = .clock then
    let train ← Pulse.train (Scalar.whole seg.cycles) (Scalar.whole s.signal.period)
      s.signal.phase seg.isRising
    let xs ← f.grid.xsAt (train.map fun pulse => Scalar.whole seg.start + pulse.offset)
    return List.zipWith (fun x pulse => ⟨Scalar.toFraction (f.schemaX + x), pulse.level⟩) xs train
  else return []

/-- The centre of a break: the middle of what is left of its symbol. -/
def placeGapMark (f : Frame K) (s : Compiled K) (gap : Int) : Except Fault K := do
  let rest := min (s.signal.period : Int) (s.length - gap)
  let centre := Scalar.whole gap + Scalar.whole rest / Scalar.fraction 2 1
  Scalar.checked (f.schemaX + (← f.grid.xAt centre))

def placeSegment (f : Frame K) (s : Compiled K) (seg : Segment) :
    Except Fault (PlacedSegment K) := do
  let x₀ ← Scalar.checked (f.schemaX + (← f.grid.xAt (Scalar.whole seg.start)))
  let x₁ ← Scalar.checked (f.schemaX + (← f.grid.xAt (Scalar.whole seg.stop)))
  let pulses ← f.placePulses s seg
  let gapMarks ← seg.gaps.mapM (f.placeGapMark s)
  return ⟨seg, x₀, x₁, pulses, gapMarks⟩

/-- The anchor of a placed segment, at half the height of its lane. -/
def anchorOf (s : Compiled K) (slot : Nat) (middle : K) (placed : PlacedSegment K) :
    Option (Anchor K) :=
  placed.segment.anchor.map fun name =>
    ⟨name, s.signal.name, slot, placed.segment.start, placed.x₀, middle⟩

/-- A signal in its lane, with its anchors. -/
def placeSignal (f : Frame K) (s : Compiled K) (slot depth : Nat) (top : K) :
    Except Fault (PlacedSignal K × List (Anchor K)) := do
  let middle := top + f.options.waveHeight / Scalar.whole 2
  let segments ← s.segments.mapM (f.placeSegment s)
  let cycleWidths ← Scalar.allChecked (f.grid.units 0 s.length)
  let middle ← Scalar.checked middle
  return (⟨s.signal.name, slot, depth, top, s.length, segments, cycleWidths, ⟨f.nameX, middle⟩⟩,
    segments.filterMap (anchorOf s slot middle))

def placeGroup (f : Frame K) (label : Option String) (depth : Nat) (lanes : LaneSpan K) :
    Except Fault (PlacedGroup K) := do
  let indent := f.options.groupIndent
  let left ← Scalar.checked (f.options.paddingLeft + Scalar.whole depth * indent)
  let bar ← Scalar.checked (left + indent * Scalar.fraction 3 4)
  let tip ← Scalar.checked (left + indent - Scalar.whole 2)
  let x ← Scalar.checked (left + indent * Scalar.fraction 35 100)
  let y ← Scalar.checked ((lanes.top + lanes.bottom) / Scalar.whole 2)
  return {
    label := label
    depth := depth
    lanes := lanes
    bracket := [⟨tip, lanes.top⟩, ⟨bar, lanes.top⟩, ⟨bar, lanes.bottom⟩, ⟨tip, lanes.bottom⟩]
    labelAt := ⟨x, y⟩ }

/-- The state after a lane. -/
def pastLane (f : Frame K) (c : Cursor K) : Except Fault (Cursor K) := do
  let bottom := c.y + f.options.waveHeight
  return ⟨← Scalar.checked (bottom + f.options.lineSpacing), bottom, c.slot + 1⟩

/-- The lane that the next item takes. -/
def nextLane (f : Frame K) (c : Cursor K) : LaneSpan K :=
  ⟨c.slot, c.slot, c.y, c.y + f.options.waveHeight⟩

/-- The outcome of placing the members of a group, with its bracket before them. -/
def bracketed (f : Frame K) (label : Option String) (depth : Nat) (members : Block K) :
    Except Fault (Block K) :=
  match members.lanes with
  | none => .ok members
  | some lanes => do
    let placed ← f.placeGroup label depth lanes
    return { members with
      order := .group placed :: members.order
      groups := members.groups ++ [placed] }

mutual

/-- Places an item at a depth of nesting. A group without lanes leaves no trace. -/
def placeItem (f : Frame K) (depth : Nat) :
    Item (Compiled K) → Cursor K → Except Fault (Block K × Cursor K)
  | .signal s, c => do
    let past ← f.pastLane c
    let (placed, anchors) ← f.placeSignal s c.slot depth c.y
    return (⟨[.signal placed], [], anchors, some (f.nextLane c)⟩, past)
  | .spacer, c => do
    let past ← f.pastLane c
    return (⟨[], [], [], some (f.nextLane c)⟩, past)
  | .group label members, c => do
    if Item.lanesAll members = 0 then return (.empty, c)
    else
      let margin := f.options.groupMargin
      let y ← Scalar.checked (c.y + margin)
      let (inner, past) ← f.placeItems (depth + 1) members { c with y := y }
      let y ← Scalar.checked (past.y + margin)
      let outer ← f.bracketed label depth inner
      return (outer, { past with y := y, extent := past.extent + margin })

def placeItems (f : Frame K) (depth : Nat) :
    List (Item (Compiled K)) → Cursor K → Except Fault (Block K × Cursor K)
  | [], c => .ok (.empty, c)
  | item :: rest, c => do
    let (first, c) ← f.placeItem depth item c
    let (others, c) ← f.placeItems depth rest c
    return (first.append others, c)

end

end Frame
end TimingDiagram
