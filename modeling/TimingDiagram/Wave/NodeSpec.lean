import TimingDiagram.Error
import TimingDiagram.Room

/-! Node specifications: the anchors that a signal declares at its symbols. -/
namespace TimingDiagram

/-- The anchors of a signal as its document declares them. -/
inductive NodeSpec where
  | absent
  /-- One letter for each symbol. -/
  | letters (s : String)
  /-- One name for each symbol. -/
  | names (entries : List (Option String))
  deriving DecidableEq, Repr

namespace NodeSpec

/-- The anchor that each place declares: a point, a space and an empty name declare
none. -/
def toNames : NodeSpec → List (Option String)
  | .absent => []
  | .letters s => s.toList.map fun c => if c = '.' || c = ' ' then none else some (toString c)
  | .names entries => entries.map fun name => name.filter fun s => !s.isEmpty

/-- The first anchor from a position on, with its position. -/
def firstFrom (i : Int) : List (Option String) → Option (Int × String)
  | [] => none
  | some name :: _ => some (i, name)
  | none :: rest => firstFrom (i + 1) rest

def pastWave (signal : String) (found : Int × String) : Error :=
  .malformed (.anchorPastWave found.2) ⟨signal, some found.1⟩

/-- The anchors of `count` symbols; one past them is an error. -/
def align (node : NodeSpec) (count : Nat) (signal : String) :
    Except Error (List (Option String)) :=
  let names := node.toNames
  match firstFrom count (names.drop count) with
  | some found => .error (pastWave signal found)
  | none => .ok (names.take count ++ List.replicate (count - names.length) none)

/-- The declared places but the last `k`. All places are past the symbols, and the last
ones are looked at first, with positions below zero; there have to be that many. -/
def alignBack (node : NodeSpec) (k : Nat) (signal : String) :
    Except Error (List (Option String)) :=
  let names := node.toNames
  let kept := names.length - k
  if names.length < k then .error (.fault .outOfRange)
  else match firstFrom (-k) (names.drop kept), firstFrom 0 names with
    | some found, _ => .error (pastWave signal found)
    | none, some found => .error (pastWave signal found)
    | none, none => .ok (names.take kept)

/-- The anchors of a number of symbols. A negative number counts declared places from
the end; where none are declared it stands for zero. There has to be room for the places
that are added. -/
def alignTo [Memory] (node : NodeSpec) (count : Int) (signal : String) :
    Except Error (List (Option String)) := do
  if count < 0 && node != .absent then node.alignBack count.natAbs signal
  else
    let _ ← (Room.copies 1 (count - node.toNames.length) : Except Fault Nat)
    node.align count.toNat signal

end NodeSpec

end TimingDiagram
