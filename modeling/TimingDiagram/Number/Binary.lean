import TimingDiagram.Number.Rounding

/-! Binary fractions of double width, read exactly and rounded correctly. A finite
double is a signed natural number times a power of two; nothing here goes through
decimal text. -/
namespace TimingDiagram

/-- The number `± mantissa * 2 ^ exponent`. -/
structure Dyadic where
  negative : Bool
  mantissa : Nat
  exponent : Int
  deriving DecidableEq, Repr

namespace Dyadic

def num (d : Dyadic) : Nat := d.mantissa * Nat.pow 2 d.exponent.toNat

def den (d : Dyadic) : Nat := Nat.pow 2 (-d.exponent).toNat

/-- The numerator with its sign. -/
def signedNum (d : Dyadic) : Int := if d.negative then -(d.num : Int) else d.num

def floor (d : Dyadic) : Int := Int.fdiv d.signedNum d.den

def truncate (d : Dyadic) : Int := Int.tdiv d.signedNum d.den

end Dyadic

namespace Binary

/-- What the bits of a double stand for. -/
inductive Reading where
  | notANumber
  | infinite (negative : Bool)
  | finite (d : Dyadic)

/-- The 52 bits of the fraction field. -/
def fractionSize : Nat := Nat.pow 2 52

/-- The meaning of a double. -/
def read (x : Float) : Reading :=
  let bits := x.toBits.toNat
  let negative := bits / Nat.pow 2 63 == 1
  let field := bits / fractionSize % 2048
  let fraction := bits % fractionSize
  if field == 2047 then
    if fraction == 0 then .infinite negative else .notANumber
  else if field == 0 then .finite ⟨negative, fraction, -1074⟩
  else .finite ⟨negative, fractionSize + fraction, (field : Int) - 1075⟩

/-- The exponent of the last place when `num / den` is held with 53 significant
bits, or the least exponent there is. -/
def lastPlace (num den : Nat) : Int :=
  let guess : Int := (num.log2 : Int) - den.log2 - 52
  let full := den * Nat.pow 2 guess.toNat * fractionSize ≤ num * Nat.pow 2 (-guess).toNat
  max (if full then guess else guess - 1) (-1074)

/-- The bits of the magnitude nearest to `num / den`, a half going to the even
neighbour; what lies past the largest double is infinite. -/
def magnitudeBits (num den : Nat) : Nat :=
  if num = 0 then 0
  else
    let e := lastPlace num den
    let m := roundDiv (num * Nat.pow 2 (-e).toNat) (den * Nat.pow 2 e.toNat)
    min ((e + 1074).toNat * fractionSize + m) (2047 * fractionSize)

/-- The double with the given sign and bits of the magnitude. -/
def ofMagnitude (negative : Bool) (bits : Nat) : Float :=
  Float.ofBits (UInt64.ofNat ((if negative then Nat.pow 2 63 else 0) + bits))

/-- The double nearest to `± num / den`. -/
def ofRatio (negative : Bool) (num den : Nat) : Float :=
  ofMagnitude negative (magnitudeBits num den)

/-- The double nearest to `± digits * 10 ^ exponent`. Exponents beyond the range of
doubles are settled without computing the power. -/
def ofDecimal (negative : Bool) (digits : Nat) (exponent : Int) : Float :=
  let size : Int := exponent + (digitsOf digits).length
  if digits = 0 || size < -400 then ofMagnitude negative 0
  else if 400 < size then ofMagnitude negative (2047 * fractionSize)
  else ofRatio negative (digits * Nat.pow 10 exponent.toNat) (Nat.pow 10 (-exponent).toNat)

end Binary
end TimingDiagram
