import TimingDiagram.Document.Signal
import TimingDiagram.Options

/-! The time axis that the signals of a figure share. A column is one cycle wide, and
shrinks only where every signal goes on as before or has ended. -/
namespace TimingDiagram

/-- The columns of the time axis. -/
structure Grid (K : Type) where
  /-- The width of a column that is not shrunk. -/
  cycleWidth : K
  /-- The fraction that a column shrinks to. -/
  gapShrink : K
  widths : Array K
  /-- The start of every column, and the end of the last one. -/
  offsets : Array K

/-- For each cycle of a signal, whether it goes on as before: what its symbols say, and
yes past the last symbol. -/
def cycleMarks (period : Nat) : List Token → Nat → List Bool
  | [], length => List.replicate length true
  | t :: rest, length =>
    List.replicate (min period length) t.tag.isContinuation ++
      cycleMarks period rest (length - period)

namespace Compiled

variable {K : Type}

/-- For each column, whether a signal lets it shrink; past its end it always does. -/
def shrinkMarks (s : Compiled K) (total : Nat) : List Bool :=
  cycleMarks s.signal.period s.tokens s.length ++ List.replicate (total - s.length) true

/-- The length of the longest signal. -/
def longest (signals : List (Compiled K)) : Nat :=
  (signals.map Compiled.length).foldl max 0

/-- For each column, whether all signals let it shrink. -/
def shrinkable (signals : List (Compiled K)) (total : Nat) : List Bool :=
  signals.foldl (fun marks s => List.zipWith (· && ·) marks (s.shrinkMarks total))
    (List.replicate total true)

end Compiled

/-- The sums of ever more of some numbers, from `start` on. -/
def runningSums {K : Type} [Add K] (start : K) : List K → List K
  | [] => [start]
  | w :: rest => start :: runningSums (start + w) rest

namespace Grid

variable {K : Type} [Add K] [Sub K] [Mul K] [Div K] [LT K] [LE K] [DecidableLT K] [DecidableLE K]
  [Max K] [Min K] [Scalar K]

def total (g : Grid K) : Nat := g.widths.size

def width (g : Grid K) : K := g.offsets.back?.getD Scalar.zero

/-- The width of a shrunk column: a fraction of the full one, but not below the least
width that a column may take. -/
def shrunkWidth (o : Options K) : K :=
  min (max (o.scaledCycleWidth * o.gapShrink) o.minGapWidth) o.scaledCycleWidth

def columnWidths (signals : List (Compiled K)) (o : Options K) : Except Fault (List K) := do
  let total := Compiled.longest signals
  let full ← Scalar.filled total o.scaledCycleWidth
  if o.gapShrink < Scalar.fraction 1 1 && 0 < total then
    let shrunk ← Scalar.checked (Scalar.toFraction (shrunkWidth o))
    let marks := Compiled.shrinkable signals total
    return List.zipWith (fun mark width => if mark then shrunk else width) marks full
  else return full

/-- A time axis with columns of given widths. -/
def ofWidths (o : Options K) (widths : List K) : Grid K where
  cycleWidth := o.scaledCycleWidth
  gapShrink := o.gapShrink
  widths := widths.toArray
  offsets := (runningSums Scalar.zero widths).toArray

def build (signals : List (Compiled K)) (o : Options K) : Except Fault (Grid K) := do
  return ofWidths o (← columnWidths signals o)

def offset (g : Grid K) (i : Nat) : K := g.offsets.getD i Scalar.zero

def columnWidth (g : Grid K) (i : Nat) : K := g.widths.getD i Scalar.zero

/-- A position within a column. -/
def within (g : Grid K) (i : Nat) (cycle : K) : K :=
  g.offset i + (cycle - Scalar.whole i) * g.columnWidth i

/-- A position past the last column, which goes on in full columns. -/
def beyond (g : Grid K) (cycle : K) : K :=
  g.width + (cycle - Scalar.whole g.total) * g.cycleWidth

/-- The place of a position in cycles, also of a fraction of a cycle. -/
def xAt (g : Grid K) (cycle : K) : Except Fault K := do
  if g.total = 0 then return Scalar.zero
  else if Scalar.whole g.total ≤ cycle then return g.beyond cycle
  else
    let i ← Scalar.truncate cycle
    return g.within i.toNat cycle

/-- The column of a position: the first and the last one hold what lies outside. -/
def columnOf (g : Grid K) (cycle : K) : Nat :=
  if cycle < Scalar.whole 0 then 0
  else match Scalar.floor cycle with
    | .ok i => min i.toNat (g.total - 1)
    | .error _ => 0

/-- The places of many positions. -/
def xsAt (g : Grid K) (cycles : List K) : Except Fault (List K) := do
  let cycles ← Scalar.allChecked (cycles.map Scalar.toFraction)
  if g.total = 0 then return cycles.map fun _ => Scalar.zero
  else return cycles.map fun cycle =>
    if Scalar.whole g.total ≤ cycle then g.beyond cycle
    else g.within (g.columnOf cycle) cycle

/-- The column that a bound stands for: a negative one counts from the end, and what
lies outside is taken to the nearest end. -/
def columnBound (g : Grid K) (i : Int) : Nat :=
  min (if i < 0 then i + g.total else i).toNat g.total

/-- The widths of the columns from `start` up to `stop`, in full columns. -/
def units (g : Grid K) (start stop : Int) : List K :=
  let first := g.columnBound start
  ((g.widths.toList.drop first).take (g.columnBound stop - first)).map fun w => w / g.cycleWidth

def display (g : Grid K) : Except Fault String := do
  return "LayoutGrid(cycles=" ++ toString g.total ++ ", width=" ++ (← Scalar.fixed 1 g.width) ++
    "px)"

end Grid
end TimingDiagram
