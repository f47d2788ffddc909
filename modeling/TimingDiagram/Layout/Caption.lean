import TimingDiagram.Document.Basic
import TimingDiagram.Layout.Placed

/-! Head and foot: a row with a title and a row with cycle numbers, the title on the
outer side. -/
namespace TimingDiagram
namespace Caption

variable {K : Type} [Add K] [Sub K] [Mul K] [Div K] [LT K] [LE K] [DecidableLT K] [DecidableLE K]
  [Scalar K]

def titleRow (note : Caption) (o : Options K) : K :=
  if note.hasTitle then o.fontSize + Scalar.whole 8 else Scalar.zero

def numberRow (note : Caption) (o : Options K) : K :=
  if note.hasNumbers then o.fontSize + Scalar.whole 4 else Scalar.zero

/-- The height of both rows. -/
def height (note : Option Caption) (o : Options K) : K :=
  match note with
  | none => Scalar.zero
  | some note => Scalar.zero + note.titleRow o + note.numberRow o

/-- The multiples of `step` below `limit`. -/
def multiples (step limit : Nat) : List Nat :=
  (List.range ((limit + step - 1) / step)).map (· * step)

/-- The numbers from `start` on at some positions, if there is a start. -/
def numbers (grid : Grid K) (schemaX y : K) (position : Nat → K) (start : Option Int)
    (places : List Nat) : Except Fault (List (PlacedText K)) :=
  match start with
  | none => .ok []
  | some start => places.mapM fun i => do
    return ⟨toString (start + i), ⟨← Scalar.checked (schemaX + (← grid.xAt (position i))), y⟩⟩

def border (i : Nat) : K := Scalar.whole i

def centre (i : Nat) : K := Scalar.whole i + Scalar.fraction 1 2

/-- A head or foot from `y` on. Ticks stand at column borders, tocks at column
centres. -/
def place (note : Caption) (y schemaX : K) (grid : Grid K) (o : Options K) (above : Bool) :
    Except Fault (PlacedCaption K) := do
  let two : K := Scalar.whole 2
  let title := note.titleRow o
  let row := note.numberRow o
  let titleY ← Scalar.checked (if above then y + title / two else y + row + title / two)
  let rowY ← Scalar.checked (if above then y + title + row / two else y + row / two)
  let text := note.text.filter fun s => !s.isEmpty
  let ticks ← numbers grid schemaX rowY border note.tick (multiples note.every (grid.total + 1))
  let tocks ← numbers grid schemaX rowY centre note.tock (multiples note.every grid.total)
  return ⟨text.map fun s => ⟨s, ⟨schemaX + grid.width / two, titleY⟩⟩, ticks ++ tocks⟩

end Caption
end TimingDiagram
