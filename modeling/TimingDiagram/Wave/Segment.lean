import TimingDiagram.Text.Quoted
import TimingDiagram.Wave.Token

/-! Segments: the runs of cycles that are drawn as one unit, and their merging. -/
namespace TimingDiagram

/-- How a run of cycles is drawn. -/
inductive SegmentKind where
  /-- A line at a steady level. -/
  | level
  /-- A filled box. -/
  | data
  /-- A pulse train. -/
  | clock
  /-- A hatched box. -/
  | gap
  deriving DecidableEq, Repr

namespace SegmentKind

def name : SegmentKind → String
  | level => "level"
  | data => "data"
  | clock => "clock"
  | gap => "gap"

def all : List SegmentKind := [level, data, clock, gap]

def ofName? (s : String) : Option SegmentKind := all.find? fun kind => kind.name == s

theorem ofName?_name (kind : SegmentKind) : ofName? kind.name = some kind := by
  cases kind <;> decide

/-- How the state of a tag is drawn. -/
def ofTag : Tag → SegmentKind
  | .data => data
  | .dontCare => gap
  | tag => if tag.isClock then clock else level

end SegmentKind

/-- A run of cycles drawn as one unit. -/
structure Segment where
  kind : SegmentKind
  start : Int
  cycles : Int
  level : Option Level := none
  tag : Option Tag := none
  color : Int := 0
  label : Option String := none
  anchor : Option String := none
  /-- Whether the run goes on from the one before it. -/
  continuation : Bool := false
  /-- The cycles at which a break is drawn. -/
  gaps : List Int := []
  deriving DecidableEq, Repr

namespace Segment

/-- The cycle after the last one. -/
def stop (s : Segment) : Int := s.start + s.cycles

def isBox (s : Segment) : Bool := s.kind = .data || s.kind = .gap

/-- Whether the edges of the run are vertical. -/
def isSharp (s : Segment) : Bool := s.tag.any Tag.isSharp

/-- Whether the edges of the run carry arrows. -/
def isMarked (s : Segment) : Bool := s.tag.any Tag.isMarked

/-- Whether a clock opens its periods with a rising edge. -/
def isRising (s : Segment) : Bool := s.tag.any Tag.isRising

def display (s : Segment) : String :=
  let label := match s.label with
    | none => ""
    | some text => ", label=" ++ Text.quote text
  "Segment(" ++ s.kind.name ++ ", start=" ++ toString s.start ++ ", cycles=" ++
    toString s.cycles ++ label ++ ")"

/-- Whether `right` goes on from `left` without a visible boundary: it starts where
`left` ends, looks alike, and carries no anchor. Every explicit data symbol is a new
value, and a clock goes on only with its own symbol. -/
def absorbs (left right : Segment) : Bool :=
  right.anchor.isNone && left.stop = right.start &&
    left.kind = right.kind && left.level = right.level && left.color = right.color &&
    (left.kind ≠ .data || (right.continuation && (right.label.isNone || right.label = left.label))) &&
    (left.kind ≠ .clock || left.tag = right.tag)

/-- Two runs as one, with the looks of the left one and the breaks of both. -/
def merge (left right : Segment) : Segment :=
  { left with cycles := left.cycles + right.cycles, gaps := left.gaps ++ right.gaps }

/-- A merged run ends where its right part does, when that goes on from the left one. -/
theorem stop_merge {left right : Segment} (h : left.stop = right.start) :
    (left.merge right).stop = right.stop := by
  simp only [stop, merge] at h ⊢
  omega

/-- The merged runs of `current` and what follows it. -/
def coalesceFrom (current : Segment) : List Segment → List Segment
  | [] => [current]
  | s :: rest =>
    if current.absorbs s then coalesceFrom (current.merge s) rest
    else current :: coalesceFrom s rest

/-- Segments merged from left to right as far as they go on from one another. -/
def coalesce : List Segment → List Segment
  | [] => []
  | s :: rest => coalesceFrom s rest

/-- The cycles that some segments cover. -/
def totalCycles (segments : List Segment) : Int :=
  segments.foldr (fun s total => s.cycles + total) 0

end Segment
end TimingDiagram
