import TimingDiagram.Document.Parse
import TimingDiagram.Figure.Emit
import TimingDiagram.Layout.Basic

/-! Rendering: a document is compiled, laid out and drawn, and its broken edges become
warnings. -/
namespace TimingDiagram

/-- A drawn figure. -/
structure Diagram (K : Type) where
  primitives : List (Primitive K)
  width : K
  height : K
  warnings : List UnknownAnchor
  /-- Where everything is, unless it has been dropped. -/
  layout : Option (Layout K)

namespace Diagram

variable {K : Type}

/-- Two figures agree in what is drawn, their size and their warnings. -/
instance [BEq K] : BEq (Diagram K) :=
  ⟨fun a b => a.primitives == b.primitives && a.width == b.width && a.height == b.height &&
    decide (a.warnings = b.warnings)⟩

/-- The primitives that depict one thing. -/
def byRole (d : Diagram K) (role : String) : List (Primitive K) :=
  d.primitives.filter fun p => p.role.name == role

end Diagram

/-- A description to draw: raw, or validated already. -/
inductive Description (K : Type) where
  | raw (value : Value)
  | parsed (document : Document K)

namespace Description

variable {K : Type} [Add K] [Sub K] [Mul K] [Div K] [LT K] [LE K] [DecidableLT K] [DecidableLE K]
  [Max K] [Min K] [Scalar K]

/-- The document of a description. Options are the base of a raw one, and replace those of
one that is validated. -/
def load (description : Description K) (options : Option (Options K)) : Logged (Document K) :=
  match description with
  | raw value => Document.parse value (options.getD Options.default)
  | parsed document => pure ((options.map document.withOptions).getD document)

end Description

namespace Document

variable {K : Type} [Add K] [Sub K] [Mul K] [Div K] [LT K] [LE K] [DecidableLT K] [DecidableLE K]
  [Max K] [Min K] [BEq K] [Scalar K]

def compile (d : Document K) : Logged (List (Item (Compiled K))) :=
  Item.traverseAll Signal.compile d.items

/-- The layout of a document under given options. -/
def layout (d : Document K) (o : Options K) : Logged (Layout K) := do
  let items ← d.compile
  Layout.compute o items d.head d.foot

def renderSource : String := "wavelane.api"

/-- What is told of a figure: its signals, its primitives and its warnings. -/
def renderSummary (signals primitives warnings : Nat) : Record :=
  ⟨.debug, renderSource,
    "rendered " ++ toString signals ++ " signals into " ++ toString primitives ++
      " primitives (" ++ toString warnings ++ " warnings)"⟩

/-- The outcomes of the edges of a document; each broken one is told. -/
def resolveEdges (registry : Registry K) (edges : List EdgeSpec) : Logged (List (EdgeResult K)) :=
  edges.mapM fun spec => do
    let result ← (EdgeResult.ofSpec registry spec : Except Fault _)
    result.records.forM Logged.tell
    return result

/-- The figure of a document. -/
def render (d : Document K) : Logged (Diagram K) := do
  let l ← d.layout d.options
  let edges ← resolveEdges l.anchors d.edges
  let primitives ← (Figure.emit l edges d.options : Except Fault _)
  let warnings := edges.filterMap EdgeResult.warning?
  Logged.tell (renderSummary l.signals.length primitives.length warnings.length)
  return ⟨primitives, l.width, l.height, warnings, some l⟩

end Document

namespace Description

variable {K : Type} [Add K] [Sub K] [Mul K] [Div K] [LT K] [LE K] [DecidableLT K] [DecidableLE K]
  [Max K] [Min K] [BEq K] [Scalar K]

/-- The figure of a description. -/
def render (description : Description K) (options : Option (Options K)) : Logged (Diagram K) := do
  let d ← description.load options
  d.render

end Description
end TimingDiagram
