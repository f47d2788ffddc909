import TimingDiagram.Log.Record
import TimingDiagram.Value.Quantity

/-! Drawing options: the dimensions, spacings, colours and text measure of a figure,
the checks they have to pass, and their merging with the settings of a document. -/
namespace TimingDiagram

/-- The options that are numbers. -/
inductive NumberOption where
  | cycleWidth
  | hscale
  | waveHeight
  | transitionOffset
  | gapShrink
  | gapMinWidth
  | paddingTop
  | paddingBottom
  | paddingLeft
  | paddingRight
  | schemaTop
  | schemaBottom
  | nameSpacing
  | lineSpacing
  | groupIndent
  | groupMargin
  | fontSize
  | charWidth
  | strokeWidth
  deriving DecidableEq, Repr

/-- The options that are texts. -/
inductive TextOption where
  | fontFamily
  | textColor
  | stroke
  | edgeColor
  | hatchColor
  | errorColor
  deriving DecidableEq, Repr

namespace NumberOption

def all : List NumberOption :=
  [cycleWidth, hscale, waveHeight, transitionOffset, gapShrink, gapMinWidth, paddingTop,
    paddingBottom, paddingLeft, paddingRight, schemaTop, schemaBottom, nameSpacing, lineSpacing,
    groupIndent, groupMargin, fontSize, charWidth, strokeWidth]

def key : NumberOption → String
  | cycleWidth => "cycle_width"
  | hscale => "hscale"
  | waveHeight => "wave_height"
  | transitionOffset => "transition_offset"
  | gapShrink => "gap_shrink"
  | gapMinWidth => "gap_min_width"
  | paddingTop => "padding_top"
  | paddingBottom => "padding_bottom"
  | paddingLeft => "padding_left"
  | paddingRight => "padding_right"
  | schemaTop => "schema_top"
  | schemaBottom => "schema_bottom"
  | nameSpacing => "name_spacing"
  | lineSpacing => "line_spacing"
  | groupIndent => "group_indent"
  | groupMargin => "group_margin"
  | fontSize => "font_size"
  | charWidth => "char_width"
  | strokeWidth => "stroke_width"

def ofKey? (s : String) : Option NumberOption := all.find? fun o => o.key == s

theorem ofKey?_key (o : NumberOption) : ofKey? o.key = some o := by
  cases o <;> decide

end NumberOption

namespace TextOption

def all : List TextOption := [fontFamily, textColor, stroke, edgeColor, hatchColor, errorColor]

def key : TextOption → String
  | fontFamily => "font_family"
  | textColor => "text_color"
  | stroke => "stroke"
  | edgeColor => "edge_color"
  | hatchColor => "hatch_color"
  | errorColor => "error_color"

def ofKey? (s : String) : Option TextOption := all.find? fun o => o.key == s

theorem ofKey?_key (o : TextOption) : ofKey? o.key = some o := by
  cases o <;> decide

end TextOption

/-- How a figure is drawn. -/
structure Options (K : Type) where
  cycleWidth : K
  hscale : K
  waveHeight : K
  transitionOffset : K
  gapShrink : K
  gapMinWidth : K
  paddingTop : K
  paddingBottom : K
  paddingLeft : K
  paddingRight : K
  schemaTop : K
  schemaBottom : K
  nameSpacing : K
  lineSpacing : K
  groupIndent : K
  groupMargin : K
  fontSize : K
  charWidth : K
  strokeWidth : K
  fontFamily : Value
  textColor : Value
  stroke : Value
  edgeColor : Value
  hatchColor : Value
  errorColor : Value
  /-- The fill colours of the boxes `2` to `9`, and perhaps more. -/
  backgrounds : List Value
  /-- The width of a text in a font size. Without such a measure it is estimated. -/
  measure : Option (String → K → K)

namespace Options

variable {K : Type}

def number (o : Options K) : NumberOption → K
  | .cycleWidth => o.cycleWidth
  | .hscale => o.hscale
  | .waveHeight => o.waveHeight
  | .transitionOffset => o.transitionOffset
  | .gapShrink => o.gapShrink
  | .gapMinWidth => o.gapMinWidth
  | .paddingTop => o.paddingTop
  | .paddingBottom => o.paddingBottom
  | .paddingLeft => o.paddingLeft
  | .paddingRight => o.paddingRight
  | .schemaTop => o.schemaTop
  | .schemaBottom => o.schemaBottom
  | .nameSpacing => o.nameSpacing
  | .lineSpacing => o.lineSpacing
  | .groupIndent => o.groupIndent
  | .groupMargin => o.groupMargin
  | .fontSize => o.fontSize
  | .charWidth => o.charWidth
  | .strokeWidth => o.strokeWidth

def withNumber (o : Options K) (key : NumberOption) (x : K) : Options K :=
  match key with
  | .cycleWidth => { o with cycleWidth := x }
  | .hscale => { o with hscale := x }
  | .waveHeight => { o with waveHeight := x }
  | .transitionOffset => { o with transitionOffset := x }
  | .gapShrink => { o with gapShrink := x }
  | .gapMinWidth => { o with gapMinWidth := x }
  | .paddingTop => { o with paddingTop := x }
  | .paddingBottom => { o with paddingBottom := x }
  | .paddingLeft => { o with paddingLeft := x }
  | .paddingRight => { o with paddingRight := x }
  | .schemaTop => { o with schemaTop := x }
  | .schemaBottom => { o with schemaBottom := x }
  | .nameSpacing => { o with nameSpacing := x }
  | .lineSpacing => { o with lineSpacing := x }
  | .groupIndent => { o with groupIndent := x }
  | .groupMargin => { o with groupMargin := x }
  | .fontSize => { o with fontSize := x }
  | .charWidth => { o with charWidth := x }
  | .strokeWidth => { o with strokeWidth := x }

/-- A number option that was set has its new value, and the others keep theirs. -/
theorem number_withNumber (o : Options K) (a b : NumberOption) (x : K) :
    (o.withNumber a x).number b = if b = a then x else o.number b := by
  cases a <;> cases b <;> rfl

def text (o : Options K) : TextOption → Value
  | .fontFamily => o.fontFamily
  | .textColor => o.textColor
  | .stroke => o.stroke
  | .edgeColor => o.edgeColor
  | .hatchColor => o.hatchColor
  | .errorColor => o.errorColor

def withText (o : Options K) (key : TextOption) (s : Value) : Options K :=
  match key with
  | .fontFamily => { o with fontFamily := s }
  | .textColor => { o with textColor := s }
  | .stroke => { o with stroke := s }
  | .edgeColor => { o with edgeColor := s }
  | .hatchColor => { o with hatchColor := s }
  | .errorColor => { o with errorColor := s }

/-- A text option that was set has its new value, and the others keep theirs. -/
theorem text_withText (o : Options K) (a b : TextOption) (s : Value) :
    (o.withText a s).text b = if b = a then s else o.text b := by
  cases a <;> cases b <;> rfl

/-- The fill colour of a box: colour `2` is the first, and a colour below it counts
from the end. -/
def background (o : Options K) (color : Int) : Except Fault Value :=
  let i := color - 2
  let i := if i < 0 then i + o.backgrounds.length else i
  if i < 0 then .error .outOfRange
  else match o.backgrounds[i.toNat]? with
    | some fill => .ok fill
    | none => .error .outOfRange

/-- The fill colours of the boxes `2` to `9` by default. -/
def defaultBackgrounds : List String :=
  ["#FFFFFF", "#F7F7A1", "#F9D49F", "#ADDEFF", "#ACD5B6", "#A4ABE1", "#E8A8F0", "#FBDADA"]

variable [Add K] [Sub K] [Mul K] [Div K] [LT K] [LE K] [DecidableLT K] [DecidableLE K]
  [Max K] [Min K] [Scalar K]

def default : Options K where
  cycleWidth := Scalar.fraction 48 1
  hscale := Scalar.fraction 1 1
  waveHeight := Scalar.fraction 24 1
  transitionOffset := Scalar.fraction 4 1
  gapShrink := Scalar.fraction 1 1
  gapMinWidth := Scalar.fraction 16 1
  paddingTop := Scalar.fraction 8 1
  paddingBottom := Scalar.fraction 8 1
  paddingLeft := Scalar.fraction 8 1
  paddingRight := Scalar.fraction 8 1
  schemaTop := Scalar.fraction 8 1
  schemaBottom := Scalar.fraction 8 1
  nameSpacing := Scalar.fraction 16 1
  lineSpacing := Scalar.fraction 16 1
  groupIndent := Scalar.fraction 24 1
  groupMargin := Scalar.fraction 8 1
  fontSize := Scalar.fraction 14 1
  charWidth := Scalar.fraction 6 10
  strokeWidth := Scalar.fraction 1 1
  fontFamily := .text "Helvetica"
  textColor := .text "#000000"
  stroke := .text "#000000"
  edgeColor := .text "#0041C4"
  hatchColor := .text "#888888"
  errorColor := .text "#FF0000"
  backgrounds := defaultBackgrounds.map .text
  measure := none

/-- The width of one cycle that is not shrunk. -/
def scaledCycleWidth (o : Options K) : K := o.cycleWidth * o.hscale

/-- The smallest width that a shrunk cycle may take. -/
def minGapWidth (o : Options K) : K :=
  min (max o.gapMinWidth (o.transitionOffset * Scalar.whole 2)) o.scaledCycleWidth

def textWidth (o : Options K) (s : String) : K :=
  match o.measure with
  | some measure => Scalar.toFraction (measure s o.fontSize)
  | none => Scalar.whole s.length * o.fontSize * o.charWidth

def defect (d : Defect) : Error := .malformed d {}

/-- The checks that options have to pass, in order. -/
def check (o : Options K) : Except Error Unit := do
  let zero : K := Scalar.whole 0
  let one : K := Scalar.whole 1
  let shown (key : NumberOption) : String := Scalar.text (o.number key)
  let cycleError := defect (.cycleNotPositive (shown .cycleWidth) (shown .hscale))
  let shrinkError := defect (.shrinkOutOfRange (shown .gapShrink))
  let width ← Scalar.number o.cycleWidth
  if width ≤ zero then throw cycleError
  let scale ← Scalar.number o.hscale
  if scale ≤ zero then throw cycleError
  let shrink ← Scalar.number o.gapShrink
  if !(zero < shrink && shrink ≤ one) then throw shrinkError
  let height ← Scalar.number o.waveHeight
  if height ≤ zero then throw (defect .waveHeightNotPositive)
  let twice ← Scalar.checked (o.transitionOffset * Scalar.whole 2)
  let cycle ← Scalar.checked o.scaledCycleWidth
  if cycle < (← Scalar.number twice) then throw (defect .transitionTooWide)
  if o.backgrounds.length < 8 then throw (defect .tooFewBackgrounds)

def source : String := "wavelane.figure.options"

/-- A setting that has to be a text. -/
def textSetting (key : String) (value : Value) : Except Error String :=
  match value with
  | .text s => .ok s
  | _ => .error (defect (.configText key))

/-- A setting that has to be a number, as a fraction. -/
def numberSetting (key : String) (value : Value) : Except Error Number :=
  match value with
  | .number n => do return .real (← (n.toFloat : Except Error Float))
  | value => .error (defect (.configNumber key value))

/-- A setting that has to be a list of colours. -/
def colourSetting (key : String) (value : Value) : Except Error (List Value) :=
  match value with
  | .list items =>
    if items.all Value.isText then .ok items else .error (defect (.configColours key))
  | _ => .error (defect (.configColours key))

/-- The options after one setting of a document. A text takes the place of a text, and a
number that of anything else; an unknown key is told and skipped. -/
def applySetting (o : Options K) (key : String) (value : Value) : Logged (Options K) :=
  match NumberOption.ofKey? key, TextOption.ofKey? key with
  | some option, _ =>
    if Scalar.isText (o.number option) then do
      return o.withNumber option (Scalar.ofText (← (textSetting key value : Except Error _)))
    else do
      return o.withNumber option (Scalar.ofNumber (← (numberSetting key value : Except Error _)))
  | none, some option =>
    if (o.text option).isText then do
      return o.withText option (.text (← (textSetting key value : Except Error _)))
    else do
      return o.withText option (.number (← (numberSetting key value : Except Error _)))
  | none, none =>
    if key = "backgrounds" then do
      return { o with backgrounds := ← (colourSetting key value : Except Error _) }
    else do
      Logged.tell ⟨.debug, source, "ignoring unknown config key " ++ Text.quote key⟩
      return o

/-- The settings of a `config` block: those of its `theme` are written over the others. -/
def settings (config : List (String × Value)) : Except Error (List (String × Value)) :=
  let plain := config.filter fun entry => entry.1 != "theme"
  match Value.lookup "theme" config with
  | none | some .null => .ok plain
  | some (.mapping theme) => .ok (Value.update plain theme)
  | some _ => .error (defect .themeKind)

/-- The options of a document: its `config` block merged over some base options. -/
def ofConfig (config : Value) (base : Options K) : Logged (Options K) :=
  if config.isBlank then pure base
  else match config with
    | .mapping entries => do
      let merged ← (settings entries : Except Error _)
      let o ← merged.foldlM (fun o entry => o.applySetting entry.1 entry.2) base
      (check o : Except Error Unit)
      return o
    | value => Logged.fail (defect (.configKind value.kindName))

end Options

namespace Options

/-- A list of colours as an application gives it; a text is the list of its characters. -/
def givenColours : Value → Except Error (List Value)
  | .list items => .ok items
  | .text s => .ok (s.toList.map fun c => .text (toString c))
  | .mapping entries => .ok (entries.map fun entry => .text entry.1)
  | _ => .error (.fault .wrongKind)

variable [Memory]

/-- A text measure as an application describes it: linear in the length of the text and in the
font size. -/
def givenMeasure (entries : List (String × Value)) (s : String) (size : Quantity) : Quantity :=
  let part (key : String) := Quantity.ofValue (Value.lookupD key entries (.number (.whole 0)))
  part "per_char" * Scalar.whole s.length + part "per_size" * size + part "base"

/-- What cannot be called measures nothing. -/
def noMeasure (_ : String) (_ : Quantity) : Quantity := .faulty .wrongKind

/-- The options after one that an application gives, which is kept as it is given. -/
def applyGiven (o : Options Quantity) (key : String) (value : Value) :
    Except Error (Options Quantity) :=
  match NumberOption.ofKey? key, TextOption.ofKey? key with
  | some option, _ => .ok (o.withNumber option (.ofValue value))
  | none, some option => .ok (o.withText option value)
  | none, none =>
    match key, value with
    | "backgrounds", value => do return { o with backgrounds := ← givenColours value }
    | "measure", .mapping entries => .ok { o with measure := some (givenMeasure entries) }
    | "measure", value => if value.isBlank then .ok o else .error (.fault .wrongKind)
    | "text_measure", .null => .ok o
    | "text_measure", _ => .ok { o with measure := some (o.measure.getD noMeasure) }
    | _, _ => .error (.fault .wrongKind)

/-- The options that an application gives, the others being the default ones. -/
def ofGiven (given : List (String × Value)) : Except Error (Options Quantity) := do
  let o ← given.foldlM (fun o entry => o.applyGiven entry.1 entry.2) (default : Options Quantity)
  check o
  return o

end Options
end TimingDiagram
