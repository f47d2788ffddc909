import TimingDiagram.Figure.Diagram
import TimingDiagram.Number.PairwiseSum

/-! Checks of a rendered document: each one derives part of the figure anew and compares
it with a rule that every figure has to keep. -/
namespace TimingDiagram

/-- The outcome of one check. -/
structure CheckResult where
  name : String
  passed : Bool
  details : String := ""
  deriving DecidableEq, Repr

/-- The outcomes of all checks. -/
structure Report where
  results : List CheckResult

namespace Report

def passed (r : Report) : Bool := r.results.all CheckResult.passed

def successes (r : Report) : List CheckResult := r.results.filter CheckResult.passed

def failures (r : Report) : List CheckResult := r.results.filter fun c => !c.passed

def summaryLine (c : CheckResult) : String :=
  "  [" ++ (if c.passed then "PASS" else "FAIL") ++ "] " ++ c.name ++
    if c.details.isEmpty then "" else ": " ++ c.details

/-- A summary of the checks, a line for each. -/
def summary (r : Report) : String :=
  let head := toString r.successes.length ++ "/" ++ toString r.results.length ++ " checks passed"
  "\n".intercalate (head :: r.results.map summaryLine)

end Report

namespace Verify

variable {K : Type} [Add K] [Sub K] [Mul K] [Div K] [LT K] [LE K] [DecidableLT K] [DecidableLE K]
  [Max K] [Min K] [BEq K] [Scalar K]

/-- Whether some values increase, by the differences of adjacent ones. -/
def increasing : List K → Bool
  | a :: b :: rest => (Scalar.zero : K) < b - a && increasing (b :: rest)
  | _ => true

def tolerance : K := Scalar.fraction 1 1000000

def differ (a b : K) : Bool :=
  let gap := a - b
  let size := if gap < Scalar.zero then Scalar.zero - gap else gap
  tolerance < size

/-- The first finding among some signals, which are examined in order. -/
def firstFinding (name : String) (examine : Signal K → Logged (Option String)) :
    List (Signal K) → Logged CheckResult
  | [] => pure ⟨name, true, ""⟩
  | s :: rest => do
    match ← examine s with
    | some finding => return ⟨name, false, finding⟩
    | none => firstFinding name examine rest

/-- A signal as findings name it. -/
def signalName (s : Signal K) : String := "signal " ++ Text.quote s.name

/-- Reading a wave twice gives the same tokens. -/
def lexingDeterministic (d : Document K) : Logged CheckResult :=
  firstFinding "lexing_deterministic" (fun s => do
    let first ← s.lexed
    let second ← s.lexed
    return if first = second then none else some (signalName s)) d.signals

/-- Rendering twice gives the same figure. -/
def renderDeterministic (d : Document K) : Logged CheckResult := do
  let first ← d.render
  let second ← d.render
  return ⟨"render_deterministic", first == second, ""⟩

/-- Merging merged segments changes nothing. -/
def coalesceIdempotent (d : Document K) : Logged CheckResult :=
  firstFinding "coalesce_idempotent" (fun s => do
    let compiled ← s.compile
    return if Segment.coalesce compiled.segments = compiled.segments then none
      else some (signalName s)) d.signals

/-- The segments of a signal cover its cycles. -/
def cycleCoverage (d : Document K) : Logged CheckResult :=
  firstFinding "cycle_coverage" (fun s => do
    let compiled ← s.compile
    let covered := Segment.totalCycles compiled.segments
    return if covered = compiled.length then none
      else some (signalName s ++ " covers " ++ toString covered ++ " of " ++
        toString compiled.length ++ " cycles")) d.signals

/-- What is wrong with the widths of a layout, if anything is. -/
def widthFinding (l : Layout K) : Option String :=
  let expected := if l.grid.total = 0 then Scalar.zero
    else Scalar.zero + PairwiseSum.sum l.grid.widths.toList
  let schema := l.grid.width
  let right := l.schemaX + schema
  let longest := Scalar.largest Scalar.zero (l.signals.map PlacedSignal.width)
  if differ schema expected then
    some ("schema width " ++ Scalar.text schema ++ " != " ++ Scalar.text expected)
  else match l.signals.find? fun s => !s.segments.isEmpty && right + tolerance < s.x₁ with
    | some s => some ("signal " ++ Text.quote s.name ++ " exceeds the canvas")
    | none =>
      if differ longest schema then
        some ("longest signal is " ++ Scalar.text longest ++ "px, schema is " ++
          Scalar.text schema ++ "px")
      else none

/-- The result of a check with at most one finding. -/
def ofFinding (name : String) (finding : Option String) : CheckResult :=
  ⟨name, finding.isNone, finding.getD ""⟩

/-- The layout of a figure that has just been rendered. -/
def layoutOf (d : Document K) : Logged (Diagram K × Option (Layout K)) := do
  let diagram ← d.render
  return (diagram, diagram.layout)

/-- The figure is as wide as its longest signal. -/
def canvasWidth (d : Document K) : Logged CheckResult := do
  let (_, l) ← layoutOf d
  return ofFinding "canvas_width" (l.bind widthFinding)

/-- Slots and lane tops increase in document order. -/
def laneOrder (d : Document K) : Logged CheckResult := do
  let (_, l) ← layoutOf d
  let signals := (l.map Layout.signals).getD []
  let slots := signals.map fun s => (Scalar.whole s.slot : K)
  return ⟨"lane_order", increasing slots && increasing (signals.map PlacedSignal.y), ""⟩

/-- There is one warning for each edge with a missing anchor. -/
def edgeWarnings (d : Document K) : Logged CheckResult := do
  let (diagram, l) ← layoutOf d
  let known (name : String) := l.any fun l => (l.anchors.find? name).isSome
  let missing := (d.edges.filter fun e => !known e.source || !known e.target).length
  let warnings := diagram.warnings.length
  return ofFinding "edge_warnings" (if missing = warnings then none
    else some (toString missing ++ " broken edges, " ++ toString warnings ++ " warnings"))

def checks : List (Document K → Logged CheckResult) :=
  [lexingDeterministic, renderDeterministic, coalesceIdempotent, cycleCoverage, canvasWidth,
    laneOrder, edgeWarnings]

def source : String := "wavelane.verification.suite"

def failureRecord (c : CheckResult) : Record :=
  ⟨.warning, source, "verification failed: " ++ c.name ++ " " ++ c.details⟩

/-- The outcomes of all checks on a description; each failed one is told. -/
def run (description : Description K) (options : Option (Options K)) : Logged Report := do
  let d ← description.load options
  let results ← checks.mapM fun check => check d
  let report : Report := ⟨results⟩
  report.failures.forM fun c => Logged.tell (failureRecord c)
  return report

end Verify
end TimingDiagram
