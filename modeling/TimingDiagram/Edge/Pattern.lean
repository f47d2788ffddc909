import TimingDiagram.Edge.Spec
import TimingDiagram.Text.Pattern

/-! The shorthand of an edge as a pattern, and the edge that a match declares. -/
namespace TimingDiagram
namespace EdgeSpec

open Text

def blankClass : CharClass := ⟨true, [], false⟩

/-- What a name is made of. -/
def nameClass : CharClass := ⟨true, ['<', '>', '~', '|', '-'], true⟩

/-- What a line is made of. -/
def lineClass : CharClass := ⟨false, ['\n'], true⟩

/-- A name, a shape between arrowheads or none, a name, and perhaps a label after a blank. -/
def pattern : Pattern := .all [
  .start, .many true blankClass,
  .group 1 (.oneOrMore nameClass), .many true blankClass,
  .group 2 (.maybe (.word ['<'])),
  .group 3 (.oneOf ['-', '|', '-'] [['-', '|'], ['|', '-'], ['-', '~'], ['~', '-'], ['~'], ['-']]),
  .group 4 (.maybe (.word ['>'])), .many true blankClass,
  .group 5 (.oneOrMore nameClass),
  .maybe (.seq (.oneOrMore blankClass) (.group 6 (.many false lineClass))),
  .many true blankClass, .stop]

/-- The edge that the parts of a match declare. An empty label is none. -/
def ofMatch? (found : Progress) : Option EdgeSpec := do
  let source ← found.group? 1
  let start ← found.group? 2
  let symbol ← found.group? 3
  let stop ← found.group? 4
  let target ← found.group? 5
  let shape ← EdgeShape.ofSymbol? (String.ofList symbol)
  let label := match found.group? 6 with
    | some (c :: cs) => some (String.ofList (c :: cs))
    | _ => none
  return ⟨String.ofList source, String.ofList target, ⟨shape, !start.isEmpty, !stop.isEmpty, false⟩,
    label⟩

/-- The edge that a text declares by what the pattern finds in it. -/
def ofPattern? (s : String) : Option EdgeSpec := pattern.match? s >>= ofMatch?

end EdgeSpec
end TimingDiagram
