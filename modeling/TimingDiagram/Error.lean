import TimingDiagram.Fault
import TimingDiagram.Value.Basic

/-! What can be wrong with a diagram. An error is a cause; its wording is in
`Error.message` alone. -/
namespace TimingDiagram

/-- The signal, and the cycle of it, that an error is about. -/
structure Place where
  signal : String := ""
  index : Option Int := none
  deriving DecidableEq, Repr

/-- A defect of a document, its options or its anchors. -/
inductive Defect where
  | anchorPastWave (anchor : String)
  | anchorPastCycles (anchor : String)
  | anchorTaken (anchor first : String)
  | cycleNotPositive (width scale : String)
  | shrinkOutOfRange (got : String)
  | waveHeightNotPositive
  | transitionTooWide
  | tooFewBackgrounds
  | configKind (kind : String)
  | themeKind
  | configColours (key : String)
  | configText (key : String)
  | configNumber (key : String) (got : Value)
  | documentKind (kind : String)
  | noSignalList
  | signalListKind
  | edgeListKind
  | signalName (got : Value)
  | noWave
  | waveKind
  | cyclesValue (got : Value)
  | dataEntries
  | dataKind
  | nodeEntries
  | nodeKind
  | periodValue (got : Value)
  | phaseKind (got : Value)
  | secondLabel (label : Option String) (second : String)
  | strayItem (got : Value)
  | captionKind (part : String)
  | captionText (part : String)
  | captionStart (part key : String)
  | captionEvery (part : String)
  | edgeText (got : String)
  | edgeEnds (got : Value)
  | edgeShape (got : Value)
  | edgeArrow (got : Value)
  | edgeDashed
  | edgeLabel
  | edgeKind (got : Value)
  | described (message : String)

/-- An edge end that names no anchor. -/
structure UnknownAnchor where
  name : String
  edge : String := ""
  deriving DecidableEq, Repr

/-- Why a diagram cannot be made. -/
inductive Error where
  /-- A wave holds a character that is no symbol there; an empty reason stands for
  the general one. -/
  | invalidSymbol (symbol reason : String) (place : Place)
  /-- A wave opens with a repeat. -/
  | danglingRepeat (place : Place)
  | malformed (defect : Defect) (place : Place)
  | unknownAnchor (missing : UnknownAnchor)
  /-- Any other error about a signal. -/
  | signal (message : String) (place : Place)
  /-- Any other error. -/
  | general (message : String)
  /-- A failed computation. -/
  | fault (cause : Fault)

/-- An optional text as messages show it. -/
def displayOption : Option String → String
  | none => "None"
  | some s => Text.quote s

namespace Place

def parts (p : Place) : List String :=
  (if p.signal.isEmpty then [] else ["signal " ++ Text.quote p.signal]) ++
    (match p.index with
    | none => []
    | some i => ["cycle " ++ toString i])

/-- A message followed by the place it is about. -/
def describe (p : Place) (message : String) : String :=
  if p.parts.isEmpty then message else message ++ " (" ++ ", ".intercalate p.parts ++ ")"

end Place

namespace Defect

/-- The wording of a defect. -/
def message : Defect → String
  | anchorPastWave a => "Anchor " ++ Text.quote a ++ " is past the end of the wave"
  | anchorPastCycles a => "Anchor " ++ Text.quote a ++ " is past the declared cycle count"
  | anchorTaken a first =>
    "Anchor " ++ Text.quote a ++ " already declared on signal " ++ Text.quote first
  | cycleNotPositive width scale =>
    "cycle_width and hscale must be positive, got " ++ width ++ " and " ++ scale
  | shrinkOutOfRange got => "gap_shrink must be in (0, 1], got " ++ got
  | waveHeightNotPositive => "wave_height must be positive"
  | transitionTooWide => "transition_offset does not fit in one cycle"
  | tooFewBackgrounds => "backgrounds needs 8 colours (\x272\x27-\x279\x27)"
  | configKind kind => "config must be a mapping, got " ++ kind
  | themeKind => "config.theme must be a mapping"
  | configColours key => "config " ++ Text.quote key ++ " must be a list of colours"
  | configText key => "config " ++ Text.quote key ++ " must be a string"
  | configNumber key got =>
    "config " ++ Text.quote key ++ " must be a number, got " ++ got.display
  | documentKind kind => "Document must be a mapping, got " ++ kind
  | noSignalList => "Document has no \x27signal\x27 list"
  | signalListKind => "\x27signal\x27 must be a list"
  | edgeListKind => "\x27edge\x27 must be a list"
  | signalName got => "Signal name must be a string, got " ++ got.display
  | noWave => "Signal has neither a wave nor a cycle count"
  | waveKind => "Signal wave must be a string"
  | cyclesValue got => "Signal cycles must be a non-negative integer, got " ++ got.display
  | dataEntries => "Signal data entries must be strings"
  | dataKind => "Signal data must be a string or a list"
  | nodeEntries => "Signal node entries must be strings"
  | nodeKind => "Signal node must be a string or a list"
  | periodValue got => "Signal period must be a positive integer, got " ++ got.display
  | phaseKind got => "Signal phase must be a number, got " ++ got.display
  | secondLabel label second =>
    "Group " ++ displayOption label ++ " has a second label " ++ Text.quote second
  | strayItem got => "Unexpected " ++ got.kindName ++ " in signal list: " ++ got.display
  | captionKind part => "\x27" ++ part ++ "\x27 must be a mapping"
  | captionText part => part ++ ".text must be a string"
  | captionStart part key => part ++ "." ++ key ++ " must be an integer"
  | captionEvery part => part ++ ".every must be a positive integer"
  | edgeText got => "Cannot parse edge " ++ Text.quote got
  | edgeEnds got => "Edge needs string \x27from\x27 and \x27to\x27: " ++ got.display
  | edgeShape got => "Unknown edge shape " ++ got.display
  | edgeArrow got => "Unknown edge arrow " ++ got.display
  | edgeDashed => "Edge \x27dashed\x27 must be a boolean"
  | edgeLabel => "Edge \x27label\x27 must be a string"
  | edgeKind got => "Edge must be a string or a mapping, got " ++ got.display
  | described message => message

end Defect

def UnknownAnchor.message (missing : UnknownAnchor) : String :=
  "Unknown anchor " ++ Text.quote missing.name ++
    if missing.edge.isEmpty then "" else " in edge " ++ Text.quote missing.edge

namespace Error

/-- The wording of an error; a failed computation has none. -/
def message : Error → String
  | invalidSymbol symbol reason place =>
    place.describe (if reason.isEmpty then "Invalid cycle symbol " ++ Text.quote symbol else reason)
  | danglingRepeat place => place.describe "Repeat symbol has no prior level to repeat"
  | malformed defect place => place.describe defect.message
  | unknownAnchor missing => missing.message
  | signal message place => place.describe message
  | general message => message
  | fault _ => ""

def place? : Error → Option Place
  | invalidSymbol _ _ p => some p
  | danglingRepeat p => some p
  | malformed _ p => some p
  | signal _ p => some p
  | _ => none

end Error

instance : MonadLift (Except Fault) (Except Error) := ⟨fun x => x.mapError .fault⟩

end TimingDiagram
