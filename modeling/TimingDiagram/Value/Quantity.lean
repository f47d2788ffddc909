import TimingDiagram.Number.Scalar
import TimingDiagram.Value.Arithmetic

/-! Quantities: what an application gives where a number is expected, and what is
computed from it, or the fault of the arithmetic that should have given a number. Only
arithmetic asks what kind of value it is. An operation on a faulty quantity is faulty
for the same cause, the left operand first, so that a computation can be written as plain
arithmetic and checked where its results are used. -/
namespace TimingDiagram

/-- The outcome of an arithmetic expression. -/
structure Quantity where
  outcome : Except Fault Value

namespace Quantity

/-- The quantity that is a given value. -/
def ofValue (v : Value) : Quantity := ⟨.ok v⟩

/-- The quantity that is a given number. -/
def known (n : Number) : Quantity := ofValue (.number n)

/-- The quantity whose computation fails. -/
def faulty (cause : Fault) : Quantity := ⟨.error cause⟩

def toNumber (a : Quantity) : Except Fault Number := do (← a.outcome).asNumber

/-- A quantity computed from two. Both are computed before they are looked at. -/
def lift₂ (f : Value → Value → Except Fault Value) (a b : Quantity) : Quantity :=
  ⟨do f (← a.outcome) (← b.outcome)⟩

/-- The order of two quantities, if they have one. -/
def order (a b : Quantity) : Option Ordering :=
  match a.outcome, b.outcome with
  | .ok v, .ok w => (v.order w).toOption.join
  | _, _ => none

/-- The first of two operands, or the second where they are in a given order. -/
def choose (second : Ordering) : Quantity → Quantity → Quantity :=
  lift₂ fun v w => do return if (← v.order w) = some second then w else v

instance : Add Quantity := ⟨lift₂ Value.add⟩
instance : Sub Quantity := ⟨lift₂ Value.sub⟩
instance [Memory] : Mul Quantity := ⟨lift₂ Value.mul⟩
instance : Div Quantity := ⟨lift₂ Value.div⟩
instance : BEq Quantity := ⟨fun a b => a.order b == some .eq⟩
instance : LT Quantity := ⟨fun a b => a.order b = some .lt⟩
instance : LE Quantity := ⟨fun a b => a.order b = some .lt ∨ a.order b = some .eq⟩
instance : DecidableLT Quantity := fun a b => inferInstanceAs (Decidable (a.order b = some .lt))
instance : DecidableLE Quantity := fun a b =>
  inferInstanceAs (Decidable (a.order b = some .lt ∨ a.order b = some .eq))

/-- The larger of two quantities; the first when neither is larger. -/
instance : Max Quantity := ⟨choose .lt⟩

/-- The smaller of two quantities; the first when neither is smaller. -/
instance : Min Quantity := ⟨choose .gt⟩

def toFraction (a : Quantity) : Quantity :=
  ⟨do return .number (.real (← (← a.outcome).asFraction))⟩

/-- A quantity computed from doubles. -/
def liftFloat (f : Float → Float) (a : Quantity) : Quantity :=
  ⟨do return .number (.real (f (← (← a.toNumber).toFloat)))⟩

def direction (y x : Number) : Except Fault Number := do
  return .real (Float.atan2 (← y.toFloat) (← x.toFloat))

/-- The number that a numeral is asked for; a text is of the kind that has numerals. -/
def toNumeral (a : Quantity) : Except Fault Number := do
  let v ← a.outcome
  if v.isText then throw .badValue else v.asNumber

/-- No list of fractions is as long as this. -/
def lengthLimit : Nat := Nat.pow 2 60

def filled [Memory] (length : Nat) (a : Quantity) : Except Fault (List Quantity) := do
  if lengthLimit ≤ length then throw .badValue
  Room.check length
  return List.replicate length (ofValue (← a.toFraction.outcome))

instance [Memory] : Scalar Quantity where
  ofNumber := known
  ofText s := ofValue (.text s)
  isText a := match a.outcome with
    | .ok v => v.isText
    | .error _ => false
  fraction n d := known (.real (Binary.ofRatio (n < 0) n.natAbs d))
  toFraction := toFraction
  checked a := do let _ ← a.outcome; return a
  number a := do let _ ← a.toNumber; return a
  filled := filled
  floor a := do (← a.toNumber).floor
  truncate a := do (← a.toNumber).truncate
  fixed places a := do (← a.toNumeral).fixed places
  compact places a := do (← a.toNumeral).compact places
  text a := match a.outcome with
    | .ok v => v.plain
    | .error _ => ""
  angle := lift₂ (Value.onNumbers direction)
  cos := liftFloat Float.cos
  sin := liftFloat Float.sin

end Quantity
end TimingDiagram
