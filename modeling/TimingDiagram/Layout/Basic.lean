import TimingDiagram.Layout.Caption
import TimingDiagram.Layout.Lanes

/-! The layout of a document: from left to right the group brackets, the names and the
waveforms; from top to bottom the head, the lanes and the foot. -/
namespace TimingDiagram
namespace Layout

variable {K : Type} [Add K] [Sub K] [Mul K] [Div K] [LT K] [LE K] [DecidableLT K] [DecidableLE K]
  [Max K] [Min K] [Scalar K]

/-- The time axis, and where names and waveforms start. -/
def frameOf (o : Options K) (items : List (Item (Compiled K))) : Except Fault (Frame K) := do
  let signals := Item.signals items
  let grid ← Grid.build signals o
  let nameX ← Scalar.checked (o.paddingLeft + Scalar.whole (Item.laneDepth items) * o.groupIndent)
  let widths := signals.map fun s => o.textWidth s.signal.name
  let nameWidth ← Scalar.checked (Scalar.largest Scalar.zero widths)
  let spacing := if signals.isEmpty then Scalar.zero else o.nameSpacing
  return ⟨o, grid, nameX, ← Scalar.checked (nameX + nameWidth + spacing)⟩

/-- The height of the lanes with the padding around them; without lanes there is none. -/
def heightOf (o : Options K) (start : K) (past : Cursor K) : K :=
  if past.slot = 0 then Scalar.zero else o.schemaTop + (past.extent - start) + o.schemaBottom

/-- Places the items of a document under given options. -/
def ofItems (o : Options K) (items : List (Item (Compiled K))) (head foot : Option Caption) :
    Except Error (Layout K) := do
  let frame ← (frameOf o items : Except Fault _)
  let schemaY := o.paddingTop + Caption.height head o
  let start ← (Scalar.checked (schemaY + o.schemaTop) : Except Fault K)
  let (block, past) ← (frame.placeItems 0 items ⟨start, start, 0⟩ : Except Fault _)
  let schemaHeight ← (Scalar.checked (heightOf o start past) : Except Fault K)
  let width ← (Scalar.checked (frame.schemaX + frame.grid.width + o.paddingRight) : Except Fault K)
  let footY := schemaY + schemaHeight
  let height ← (Scalar.checked (footY + Caption.height foot o + o.paddingBottom) : Except Fault K)
  let anchors ← Registry.ofList block.anchors
  let head ← (head.mapM fun note =>
    note.place o.paddingTop frame.schemaX frame.grid o true : Except Fault _)
  let foot ← (foot.mapM fun note =>
    note.place footY frame.schemaX frame.grid o false : Except Fault _)
  return ⟨o, frame.grid, width, height, frame.schemaX, schemaY, schemaHeight, block.groups,
    block.order, anchors, head, foot⟩

def source : String := "wavelane.figure.layout"

/-- What is told of a layout: its lanes, its cycles and its size. -/
def summary (l : Layout K) : Except Fault Record := do
  let width ← Scalar.fixed 1 l.width
  let height ← Scalar.fixed 1 l.height
  return ⟨.debug, source,
    "laid out " ++ toString l.signals.length ++ " signals over " ++ toString l.grid.total ++
      " cycles (" ++ width ++ " x " ++ height ++ " px)"⟩

/-- The layout of compiled items, told when it is done. -/
def compute (o : Options K) (items : List (Item (Compiled K))) (head foot : Option Caption) :
    Logged (Layout K) := do
  let l ← (ofItems o items head foot : Except Error (Layout K))
  Logged.tell (← (summary l : Except Error Record))
  return l

end Layout
end TimingDiagram
