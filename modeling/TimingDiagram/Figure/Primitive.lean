import TimingDiagram.Edge.Path
import TimingDiagram.Options

/-! Primitives: the drawing instructions of a figure, and the styles they carry. -/
namespace TimingDiagram

/-- The form of a primitive. -/
inductive PrimitiveKind where
  /-- Two opposite corners. -/
  | rect
  | polyline
  /-- Four control points. -/
  | bezier
  | text
  | bracket
  deriving DecidableEq, Repr

def PrimitiveKind.name : PrimitiveKind → String
  | rect => "rect"
  | polyline => "polyline"
  | bezier => "bezier"
  | text => "text"
  | bracket => "bracket"

/-- What a primitive depicts. -/
inductive Role where
  | title
  | tick
  | group
  | groupLabel
  | signalName
  | level
  | clock
  | fill
  | box
  | label
  | transition
  | marker
  | gap
  | edge
  | arrow
  | edgeLabel
  | unresolved
  deriving DecidableEq, Repr

def Role.name : Role → String
  | title => "title"
  | tick => "tick"
  | group => "group"
  | groupLabel => "group-label"
  | signalName => "name"
  | level => "level"
  | clock => "clock"
  | fill => "fill"
  | box => "box"
  | label => "label"
  | transition => "transition"
  | marker => "marker"
  | gap => "gap"
  | edge => "edge"
  | arrow => "arrow"
  | edgeLabel => "edge-label"
  | unresolved => "unresolved"

/-- Presentation attributes in order. -/
abbrev Style := List (String × Value)

/-- Whether two styles are the same, also where a value in them is no number. -/
def Style.same (a b : Style) : Bool := Value.sameEntries a b

/-- One drawing instruction. -/
structure Primitive (K : Type) where
  kind : PrimitiveKind
  points : List (Point K)
  /-- The content of a text. -/
  text : Option String := none
  style : Style
  role : Role
  /-- Whether a polyline is a filled shape. -/
  closed : Bool := false

namespace Primitive

variable {K : Type}

instance [BEq K] : BEq (Primitive K) :=
  ⟨fun a b => a.kind = b.kind && a.points == b.points && a.text == b.text &&
    Style.same a.style b.style && a.role = b.role && a.closed == b.closed⟩

/-- The presentation attributes by their names; the last value for a name counts. -/
def attrs (p : Primitive K) : Style := Value.update [] p.style

/-- An open line through some points. -/
def line (points : List (Point K)) (style : Style) (role : Role) : Primitive K :=
  ⟨.polyline, points, none, style, role, false⟩

/-- A filled shape. -/
def shape (points : List (Point K)) (style : Style) (role : Role) : Primitive K :=
  ⟨.polyline, points, none, style, role, true⟩

/-- A text at a point. -/
def label (point : Point K) (text : String) (style : Style) (role : Role) : Primitive K :=
  ⟨.text, [point], some text, style, role, false⟩

end Primitive

/-- The styles of one figure. -/
structure Styles (K : Type) where
  options : Options K
  strokeWidth : String

namespace Styles

variable {K : Type}

/-- The numeral of a coordinate in a style or a path: two decimals at most. -/
def numeral [Scalar K] (x : K) : Except Fault String := Scalar.compact 2 x

def ofOptions [Scalar K] (o : Options K) : Except Fault (Styles K) := do
  return ⟨o, ← numeral o.strokeWidth⟩

/-- An attribute that is a text. -/
def entry (key text : String) : String × Value := (key, .text text)

def stroked (s : Styles K) (color : Value) : Style :=
  [entry "fill" "none", ("stroke", color), entry "stroke-width" s.strokeWidth]

def filled (color : Value) : Style := [("fill", color), entry "stroke" "none"]

/-- The lines of waveforms and brackets. -/
def line (s : Styles K) : Style := s.stroked s.options.stroke

def edge (s : Styles K) : Style := s.stroked s.options.edgeColor

/-- The mark at an anchor of a broken edge. -/
def unresolved (s : Styles K) : Style := s.stroked s.options.errorColor

def arrow (s : Styles K) : Style := filled s.options.edgeColor

/-- The arrow on an edge of a waveform. -/
def marker (s : Styles K) : Style := filled s.options.stroke

def blank : Style := filled (.text "#FFFFFF")

/-- The style of a text; a blank colour stands for that of texts. -/
def text [Scalar K] (s : Styles K) (anchor : String) (color : Value) (more : Style) :
    Except Fault Style := do
  let size ← numeral s.options.fontSize
  return [("fill", if color.isBlank then s.options.textColor else color),
    ("font-family", s.options.fontFamily), entry "font-size" size, entry "text-anchor" anchor,
    entry "dominant-baseline" "middle"] ++ more

/-- The style of a text centred on its point. -/
def centred [Scalar K] (s : Styles K) (more : Style) : Except Fault Style :=
  s.text "middle" .null more

end Styles

def hatchId : String := "wavelane-hatch"

end TimingDiagram
