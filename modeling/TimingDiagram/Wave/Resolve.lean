import TimingDiagram.Error
import TimingDiagram.Wave.Segment

/-! From tokens to segments: a piece for each token, labels in order, the declared
length, and the merging of what looks alike. -/
namespace TimingDiagram
namespace Segment

/-- The piece of a token that is `period` cycles wide. -/
def ofToken (period : Int) (label : Option String) (t : Token) : Segment :=
  let start := t.index * period
  { kind := .ofTag t.resolved
    start := start
    cycles := period
    level := t.resolved.level?
    tag := some t.resolved
    color := t.color
    label := label
    anchor := t.anchor
    continuation := t.tag.isContinuation
    gaps := if t.tag = .gap then [start] else [] }

/-- The pieces of some tokens. A data token without a text of its own takes the next
of the labels. -/
def pieces (period : Int) : List Token → List String → List Segment
  | [], _ => []
  | t :: rest, labels =>
    if t.tag = .data then
      match t.text with
      | some text => ofToken period (some text) t :: pieces period rest labels
      | none => ofToken period labels.head? t :: pieces period rest labels.tail
    else ofToken period none t :: pieces period rest labels

/-- The pieces that start before `length`, cut off there. -/
def clip (length : Int) : List Segment → List Segment
  | [] => []
  | s :: rest =>
    if length ≤ s.start then []
    else if length < s.stop then
      { s with cycles := length - s.start, gaps := s.gaps.filter (· < length) } ::
        clip length rest
    else s :: clip length rest

/-- The run that fills the cycles from `total` to `length`: the last piece goes on, and
a signal without pieces is undefined. -/
def padding (total length : Int) : Option Segment → Segment
  | some last =>
    { last with
      start := total, cycles := length - total, label := none, anchor := none,
      continuation := true, gaps := [] }
  | none => { kind := .gap, start := 0, cycles := length, tag := some .dontCare }

/-- The first anchored token that starts at or past `length`. -/
def firstClipped (period length : Int) (tokens : List Token) : Option (Token × String) :=
  tokens.findSome? fun t =>
    match t.anchor with
    | some name => if length ≤ t.index * period then some (t, name) else none
    | none => none

/-- The pieces of a signal, padded or clipped to a declared length. -/
def fitted (tokens : List Token) (period : Int) (data : List String) (length : Option Int)
    (signal : String) : Except Error (List Segment) :=
  let ps := pieces period tokens data
  let total := tokens.length * period
  match length with
  | none => .ok ps
  | some length =>
    if total < length then .ok (ps ++ [padding total length ps.getLast?])
    else if length < total then
      match firstClipped period length tokens with
      | some (t, name) => .error (.malformed (.anchorPastCycles name) ⟨signal, some t.index⟩)
      | none => .ok (clip length ps)
    else .ok ps

/-- The segments of a signal. -/
def resolve (tokens : List Token) (period : Int) (data : List String) (length : Option Int)
    (signal : String) : Except Error (List Segment) :=
  (fitted tokens period data length signal).map coalesce

end Segment
end TimingDiagram
