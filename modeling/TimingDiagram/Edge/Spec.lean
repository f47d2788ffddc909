import TimingDiagram.Error
import TimingDiagram.Text.Blank

/-! Edges as a document declares them, in shorthand or as a mapping, and their
printed form. -/
namespace TimingDiagram

/-- The course of an edge between its anchors. -/
inductive EdgeShape where
  | straight
  /-- Horizontal, vertical, horizontal. -/
  | orthogonal
  | horizontalVertical
  | verticalHorizontal
  | curved
  | curvedStart
  | curvedEnd
  deriving DecidableEq, Repr

namespace EdgeShape

def all : List EdgeShape :=
  [straight, orthogonal, horizontalVertical, verticalHorizontal, curved, curvedStart, curvedEnd]

def symbol : EdgeShape → String
  | straight => "-"
  | orthogonal => "-|-"
  | horizontalVertical => "-|"
  | verticalHorizontal => "|-"
  | curved => "~"
  | curvedStart => "-~"
  | curvedEnd => "~-"

def ofSymbol? (s : String) : Option EdgeShape := all.find? fun shape => shape.symbol == s

theorem ofSymbol?_symbol (shape : EdgeShape) : ofSymbol? shape.symbol = some shape := by
  cases shape <;> decide

def isCurve : EdgeShape → Bool
  | curved | curvedStart | curvedEnd => true
  | _ => false

end EdgeShape

/-- The shape, arrowheads and line of an edge. -/
structure EdgeStyle where
  shape : EdgeShape := .straight
  arrowStart : Bool := false
  arrowEnd : Bool := true
  dashed : Bool := false
  deriving DecidableEq, Repr

def EdgeStyle.symbol (style : EdgeStyle) : String :=
  (if style.arrowStart then "<" else "") ++ style.shape.symbol ++
    (if style.arrowEnd then ">" else "")

/-- An edge between two anchor names. -/
structure EdgeSpec where
  source : String
  target : String
  style : EdgeStyle := {}
  label : Option String := none
  deriving DecidableEq, Repr

namespace EdgeSpec

/-- The shorthand of an edge. -/
def print (e : EdgeSpec) : String :=
  let text := e.source ++ e.style.symbol ++ e.target
  match e.label with
  | none => text
  | some label => if label.isEmpty then text else text ++ " " ++ label

/-- The characters that make up the symbol between two names. -/
def isSymbolChar (c : Char) : Bool := c == '<' || c == '>' || c == '~' || c == '|' || c == '-'

def isNameChar (c : Char) : Bool := !Text.isBlank c && !isSymbolChar c

def isShapeChar (c : Char) : Bool := c == '~' || c == '|' || c == '-'

/-- A character, if the text opens with it, and what follows. -/
def flag (c : Char) : List Char → Bool × List Char
  | [] => (false, [])
  | d :: rest => if d = c then (true, rest) else (false, d :: rest)

/-- The label in what follows the second name: nothing, or a blank and then a text
without line feeds. An empty text is no label. -/
def label? (cs : List Char) : Option (Option String) :=
  match cs with
  | [] => some none
  | c :: _ =>
    let body := Text.trimBlanks cs
    if !Text.isBlank c || body.contains '\n' then none
    else some (if body.isEmpty then none else some (String.ofList body))

/-- The edge that a shorthand text declares: a name, a symbol, a name and perhaps a
label, with blanks around the names. -/
def ofText? (s : String) : Option EdgeSpec := do
  let cs := Text.dropBlanks s.toList
  let source := cs.takeWhile isNameChar
  let cs := Text.dropBlanks (cs.dropWhile isNameChar)
  let (start, cs) := flag '<' cs
  let shape ← EdgeShape.ofSymbol? (String.ofList (cs.takeWhile isShapeChar))
  let (stop, cs) := flag '>' (cs.dropWhile isShapeChar)
  let cs := Text.dropBlanks cs
  let target := cs.takeWhile isNameChar
  if source.isEmpty || target.isEmpty then none
  else
    let label ← label? (cs.dropWhile isNameChar)
    return ⟨String.ofList source, String.ofList target, ⟨shape, start, stop, false⟩, label⟩

def defect (d : Defect) : Error := .malformed d {}

/-- The shape that a mapping names. A list or a mapping is no possible name. -/
def shapeOf (value : Value) : Except Error EdgeShape :=
  match value with
  | .list _ | .mapping _ => .error (.fault .wrongKind)
  | .text s =>
    match EdgeShape.ofSymbol? s with
    | some shape => .ok shape
    | none => .error (defect (.edgeShape value))
  | _ => .error (defect (.edgeShape value))

/-- The arrowheads that a mapping names: a text of angle brackets. -/
def arrowsOf (value : Value) : Except Error (Bool × Bool) :=
  match value with
  | .text s =>
    if s.toList.all fun c => c == '<' || c == '>' then
      .ok (s.toList.contains '<', s.toList.contains '>')
    else .error (defect (.edgeArrow value))
  | _ => .error (defect (.edgeArrow value))

def ofMapping (entries : List (String × Value)) : Except Error EdgeSpec := do
  match Value.lookupD "from" entries .null, Value.lookupD "to" entries .null with
  | .text source, .text target =>
    let shape ← shapeOf (Value.lookupD "shape" entries (.text "-"))
    let (start, stop) ← arrowsOf (Value.lookupD "arrow" entries (.text ">"))
    let dashed ← match Value.lookupD "dashed" entries (.bool false) with
      | .bool b => pure b
      | _ => throw (defect .edgeDashed)
    let label ← match Value.lookupD "label" entries .null with
      | .null => pure none
      | .text s => pure (some s)
      | _ => throw (defect .edgeLabel)
    return ⟨source, target, ⟨shape, start, stop, dashed⟩, label⟩
  | _, _ => throw (defect (.edgeEnds (.mapping entries)))

/-- The edge that an entry of a document declares. -/
def ofValue (value : Value) : Except Error EdgeSpec :=
  match value with
  | .text s =>
    match ofText? s with
    | some e => .ok e
    | none => .error (defect (.edgeText s))
  | .mapping entries => ofMapping entries
  | value => .error (defect (.edgeKind value))

end EdgeSpec
end TimingDiagram
