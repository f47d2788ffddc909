import TimingDiagram.Fault
import TimingDiagram.Number.Shortest
import TimingDiagram.Number.Fixed

/-! Numbers as documents hold them: whole numbers of any size, and binary fractions.
Whole numbers stay whole under addition, subtraction and multiplication; an operation
with a fraction, and every division, gives a fraction. -/
namespace TimingDiagram

/-- A whole number or a binary fraction. -/
inductive Number where
  | whole (n : Int)
  | real (x : Float)

namespace Number

/-- The double nearest to a whole number, whatever its size. -/
def nearest (n : Int) : Float := Binary.ofRatio (n < 0) n.natAbs 1

def toFloat : Number → Except Fault Float
  | .whole n => let x := nearest n; if x.isInf then .error .tooLarge else .ok x
  | .real x => .ok x

/-- An operation that keeps whole numbers whole. -/
def combine (onWhole : Int → Int → Int) (onReal : Float → Float → Float)
    (a b : Number) : Except Fault Number :=
  match a, b with
  | .whole m, .whole n => .ok (.whole (onWhole m n))
  | a, b => do return .real (onReal (← a.toFloat) (← b.toFloat))

def add : Number → Number → Except Fault Number := combine (· + ·) (· + ·)

def sub : Number → Number → Except Fault Number := combine (· - ·) (· - ·)

def mul : Number → Number → Except Fault Number := combine (· * ·) (· * ·)

/-- The quotient, rounded once; a quotient of whole numbers is no exception. -/
def div (a b : Number) : Except Fault Number :=
  match a, b with
  | .whole m, .whole n =>
    if n = 0 then .error .divisionByZero
    else
      let x := Binary.ofRatio ((m < 0) != (n < 0)) m.natAbs n.natAbs
      if x.isInf then .error .tooLarge else .ok (.real x)
  | a, b => do
    let x ← a.toFloat
    let y ← b.toFloat
    if y == 0.0 then .error .divisionByZero else return .real (x / y)

/-- The order of a whole number and a double, compared exactly. -/
def compareWhole (n : Int) (x : Float) : Option Ordering :=
  match Binary.read x with
  | .notANumber => none
  | .infinite negative => some (if negative then .gt else .lt)
  | .finite d => some (compare (n * d.den) d.signedNum)

/-- The order of two doubles, if both are numbers. -/
def compareReal (x y : Float) : Option Ordering :=
  if x < y then some .lt else if y < x then some .gt else if x == y then some .eq else none

def order : Number → Number → Option Ordering
  | .whole m, .whole n => some (compare m n)
  | .whole m, .real y => compareWhole m y
  | .real x, .whole n => (compareWhole n x).map Ordering.swap
  | .real x, .real y => compareReal x y

instance : BEq Number := ⟨fun a b => a.order b == some .eq⟩

/-- Whether two numbers are one and the same, to the bit. -/
def same : Number → Number → Bool
  | .whole m, .whole n => m == n
  | .real x, .real y => x.toBits == y.toBits
  | _, _ => false

/-- An integer read off the exact value, if the number is finite. -/
def toWhole (read : Dyadic → Int) : Number → Except Fault Int
  | .whole n => .ok n
  | .real x =>
    match Binary.read x with
    | .notANumber => .error .badValue
    | .infinite _ => .error .tooLarge
    | .finite d => .ok (read d)

def floor : Number → Except Fault Int := toWhole Dyadic.floor

/-- The number without its fraction. -/
def truncate : Number → Except Fault Int := toWhole Dyadic.truncate

/-- The text of a number: all digits of a whole number, the shortest digits of a
fraction. -/
def text : Number → String
  | .whole n => toString n
  | .real x => shortestText x

/-- The number with a fixed count of decimals. -/
def fixed (places : Nat) (a : Number) : Except Fault String := do
  return String.ofList (Fixed.ofFloat places (← a.toFloat))

/-- The number rounded to a count of decimals, without superfluous zeros. -/
def compact (places : Nat) (a : Number) : Except Fault String := do
  return String.ofList (Fixed.compact (Fixed.ofFloat places (← a.toFloat)))

end Number
end TimingDiagram
