import TimingDiagram.Document.Item
import TimingDiagram.Document.Signal
import TimingDiagram.Edge.Spec
import TimingDiagram.Options

/-! Documents: validated descriptions of diagrams. -/
namespace TimingDiagram

/-- A title and cycle numbers above or below the lanes. -/
structure Caption where
  text : Option String := none
  /-- The number of the first column border. -/
  tick : Option Int := none
  /-- The number of the first column. -/
  tock : Option Int := none
  /-- Only every so-manieth position is numbered. -/
  every : Nat := 1

namespace Caption

/-- Whether there is a title to show. -/
def hasTitle (note : Caption) : Bool := note.text.any fun s => !s.isEmpty

/-- Whether there are cycle numbers to show. -/
def hasNumbers (note : Caption) : Bool := note.tick.isSome || note.tock.isSome

end Caption

/-- A validated description of a diagram. -/
structure Document (K : Type) where
  items : List (Item (Signal K))
  edges : List EdgeSpec
  options : Options K
  head : Option Caption
  foot : Option Caption

namespace Document

variable {K : Type}

/-- The signals in document order. -/
def signals (d : Document K) : List (Signal K) := Item.signals d.items

/-- The document with other options in place of its own. -/
def withOptions (d : Document K) (options : Options K) : Document K :=
  { d with options := options }

end Document
end TimingDiagram
