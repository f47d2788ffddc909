import TimingDiagram.Edge.Registry
import TimingDiagram.Layout.Grid

/-! The placed figure: every segment, signal, group, text and anchor with its absolute
coordinates. -/
namespace TimingDiagram

/-- A level that holds from a place on. -/
structure PlacedPulse (K : Type) where
  x : K
  level : Level

/-- A segment with its extent. -/
structure PlacedSegment (K : Type) where
  segment : Segment
  x₀ : K
  x₁ : K
  /-- The turns of a clock. -/
  pulses : List (PlacedPulse K)
  /-- The centres of the breaks. -/
  gapMarks : List K

/-- A signal in its lane. -/
structure PlacedSignal (K : Type) where
  name : String
  /-- The number of lanes above it. -/
  slot : Nat
  /-- The number of groups around it. -/
  depth : Nat
  /-- The top of its lane. -/
  y : K
  length : Nat
  segments : List (PlacedSegment K)
  cycleWidths : List K
  nameAt : Point K

namespace PlacedSignal

variable {K : Type}

/-- Where the waveform starts; a signal without cycles has its name there. -/
def x₀ (s : PlacedSignal K) : K :=
  match s.segments.head? with
  | some first => first.x₀
  | none => s.nameAt.x

/-- Where the waveform ends. -/
def x₁ (s : PlacedSignal K) : K :=
  match s.segments.getLast? with
  | some last => last.x₁
  | none => s.x₀

def width [Sub K] [Scalar K] (s : PlacedSignal K) : K :=
  if s.segments.isEmpty then Scalar.zero else s.x₁ - s.x₀

end PlacedSignal

/-- The lanes that a group holds, and where they lie. -/
structure LaneSpan (K : Type) where
  firstSlot : Nat
  lastSlot : Nat
  top : K
  bottom : K

namespace LaneSpan

variable {K : Type}

/-- The lanes from the first span's to the second's. -/
def join : Option (LaneSpan K) → Option (LaneSpan K) → Option (LaneSpan K)
  | none, b => b
  | a, none => a
  | some a, some b => some ⟨a.firstSlot, b.lastSlot, a.top, b.bottom⟩

end LaneSpan

/-- A group bracket. -/
structure PlacedGroup (K : Type) where
  label : Option String
  depth : Nat
  lanes : LaneSpan K
  bracket : List (Point K)
  labelAt : Point K

/-- What is drawn in document order. -/
inductive Placed (K : Type) where
  | group (g : PlacedGroup K)
  | signal (s : PlacedSignal K)

namespace Placed

variable {K : Type}

/-- The signal, if it is one. -/
def signal? : Placed K → Option (PlacedSignal K)
  | signal s => some s
  | group _ => none

end Placed

/-- A text with the point it is set at. -/
structure PlacedText (K : Type) where
  text : String
  point : Point K

/-- A title and a row of numbers. -/
structure PlacedCaption (K : Type) where
  title : Option (PlacedText K)
  numbers : List (PlacedText K)

/-- Everything there is to draw, in absolute coordinates. -/
structure Layout (K : Type) where
  options : Options K
  grid : Grid K
  width : K
  height : K
  schemaX : K
  schemaY : K
  schemaHeight : K
  /-- The brackets, inner ones before outer ones. -/
  groups : List (PlacedGroup K)
  /-- Brackets and signals in document order. -/
  order : List (Placed K)
  anchors : Registry K
  head : Option (PlacedCaption K)
  foot : Option (PlacedCaption K)

namespace Layout

variable {K : Type}

def signals (l : Layout K) : List (PlacedSignal K) := l.order.filterMap Placed.signal?

end Layout
end TimingDiagram
