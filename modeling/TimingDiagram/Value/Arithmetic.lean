import TimingDiagram.Number.Numeral
import TimingDiagram.Room
import TimingDiagram.Value.Basic

/-! Arithmetic on document values. Numbers are computed with, a truth value counting as
zero or one. Two texts or two lists can be joined, and one of them repeated a whole
number of times. Everything else is of the wrong kind. -/
namespace TimingDiagram
namespace Value

/-- An operation that only numbers have. -/
def onNumbers (f : Number → Number → Except Fault Number) (v w : Value) : Except Fault Value := do
  return number (← f (← v.asNumber) (← w.asNumber))

/-- A value as a number of copies. No fraction counts, not even a whole one. -/
def asCount (v : Value) : Except Fault Int := do
  match ← v.asNumber with
  | .whole n => return n
  | .real _ => throw .wrongKind

def add : Value → Value → Except Fault Value
  | text s, text t => .ok (text (s ++ t))
  | list vs, list ws => .ok (list (vs ++ ws))
  | v, w => onNumbers Number.add v w

def sub : Value → Value → Except Fault Value := onNumbers Number.sub

/-- The product, or a text or a list repeated; either may come first. -/
def mul [Memory] : Value → Value → Except Fault Value
  | text s, w => do return text (← Room.repeatedText s (← w.asCount))
  | list vs, w => do return list (← Room.repeated vs (← w.asCount))
  | v, text s => do return text (← Room.repeatedText s (← v.asCount))
  | v, list vs => do return list (← Room.repeated vs (← v.asCount))
  | v, w => onNumbers Number.mul v w

def div : Value → Value → Except Fault Value := onNumbers Number.div

/-- The order of two values of one kind, if they have one. Lists are only compared with
repetitions of themselves, where the longer one is the larger. -/
def order : Value → Value → Except Fault (Option Ordering)
  | text s, text t => .ok (some (compare s t))
  | list vs, list ws => .ok (some (compare vs.length ws.length))
  | v, w => do return (← v.asNumber).order (← w.asNumber)

/-- A value as a fraction. A text is taken for the numeral it holds. -/
def asFraction : Value → Except Fault Float
  | text s =>
    match Numeral.read? s with
    | some x => .ok x
    | none => .error .badValue
  | v => do (← v.asNumber).toFloat

end Value
end TimingDiagram
