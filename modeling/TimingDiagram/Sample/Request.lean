import TimingDiagram.Sample.Generate
import TimingDiagram.Value.Arithmetic

/-! Samples on request. A request gives arguments by name, which may be of any kind; each
is looked at when the sample needs it, and what is wrong with an earlier one is the answer. -/
namespace TimingDiagram
namespace Sample

/-- The arguments of a request by their names. -/
abbrev Arguments := List (String × Value)

/-- Only arguments with a meaning may be given. -/
def checkNames (names : List String) (args : Arguments) : Except Fault Unit :=
  if args.all fun a => names.contains a.1 then .ok () else .error .wrongKind

def argument (args : Arguments) (name : String) (default : Int) : Value :=
  Value.lookupD name args (.number (.whole default))

def flag (args : Arguments) (name : String) : Bool := !(Value.lookupD name args .null).isBlank

/-- A number of cycles, a fraction that is not positive standing for a whole number of its
sign. There is none for a positive fraction. -/
def cyclesOf? (value : Value) : Except Fault (Option Int) := do
  match ← value.asNumber with
  | .whole n => return some n
  | .real x => return if x == 0.0 then some 0 else if x < 0.0 then some (-1) else none

def cyclesOf (value : Value) : Except Fault Int := do
  match ← cyclesOf? value with
  | some n => return n
  | none => throw .wrongKind

/-- The state of a requested seed. -/
def seedState (args : Arguments) : Except Fault (Int × Twister) := do
  let seed ← (argument args "seed" 0).asCount
  return (seed, ← seeded twisterDraws seed)

def requestedClock [Memory] (args : Arguments) : Except Fault String := do
  checkNames ["n_cycles", "marked", "negative"] args
  clock (← cyclesOf (Value.lookupD "n_cycles" args .null)) (flag args "marked")
    (flag args "negative")

/-- A requested wave. The seed is looked at when there is a cycle to draw, and the share of
repeats from the second one on. -/
def requestedWave (args : Arguments) : Except Fault String := do
  checkNames ["n_cycles", "seed", "repeat_bias"] args
  let cycles ← cyclesOf? (Value.lookupD "n_cycles" args .null)
  if cycles.any (· ≤ 0) then return ""
  let (seed, _) ← seedState args
  let bias := Value.lookupD "repeat_bias" args (.number (.real 0.3))
  match cycles with
  | none => throw .wrongKind
  | some 1 => wave twisterDraws 1 seed (.whole 0)
  | some n => wave twisterDraws n seed (← bias.asNumber)

/-- The size of groups, zero when there are none, and whether groups can have it. -/
def groupSizeOf (value : Value) : Int × Bool :=
  match value.asNumber with
  | .ok (.whole n) => (n, true)
  | .ok (.real x) => (0, !(0.0 < x))
  | .error _ => (0, false)

/-- The number of edges, and whether so many can be drawn. What is not blank asks for
anchors. -/
def edgesOf (value : Value) : Int × Bool :=
  match value.asCount with
  | .ok n => (n, true)
  | .error _ => if value.isBlank then (0, true) else (1, false)

/-- A requested document. The kinds of the last two arguments are looked at when the signals
have been drawn. -/
def requestedDocument [Memory] (args : Arguments) : Except Fault Value := do
  checkNames ["n_signals", "n_cycles", "seed", "group_every", "n_edges"] args
  let (seed, _) ← seedState args
  let cycles ← cyclesOf (argument args "n_cycles" 16)
  let _ ← clock cycles false false
  let signals ← (argument args "n_signals" 8).asCount
  let (size, grouping) := groupSizeOf (argument args "group_every" 0)
  let (edges, drawing) := edgesOf (argument args "n_edges" 0)
  let d ← document twisterDraws signals cycles seed size edges
  if !grouping || (!drawing && cycles != 0 && 2 ≤ signals) then throw .wrongKind
  return d

end Sample
end TimingDiagram
