import TimingDiagram.Number.Binary

/-! The fewest decimal digits that read back as a given double. For each number of
digits the two neighbours of the value on that decimal grid are tested in exact
arithmetic; the first grid with a hit wins, and of two hits the nearer. -/
namespace TimingDiagram

/-- The number `digits * 10 ^ scale`. -/
structure Decimal where
  digits : Nat
  scale : Int
  deriving DecidableEq, Repr

namespace Decimal

def text (d : Decimal) : List Char := digitsOf d.digits

def strip : Nat → Decimal → Decimal
  | 0, d => d
  | n + 1, d => if d.digits % 10 = 0 then strip n ⟨d.digits / 10, d.scale + 1⟩ else d

end Decimal

namespace Shortest

/-- The least `k` with `m * 2 ^ e < 10 ^ k`, searched upwards from `k`. -/
def sizeFrom : Nat → Nat → Int → Int → Int
  | 0, _, _, k => k
  | n + 1, m, e, k =>
    if m * Nat.pow 2 e.toNat * Nat.pow 10 (-k).toNat <
        Nat.pow 10 k.toNat * Nat.pow 2 (-e).toNat then k
    else sizeFrom n m e (k + 1)

/-- The least `k` with `m * 2 ^ e < 10 ^ k`, for positive `m`. -/
def size (m : Nat) (e : Int) : Int :=
  sizeFrom 4 m e (Int.fdiv (((m.log2 : Int) + e) * 1233) 4096)

/-- Quarters of the last place: the ends of the interval of reals that round to
`m * 2 ^ e`, below and above `4 * m`. The interval below a power of two is half as
long, unless the exponent is the least one. -/
def interval (m : Nat) (e : Int) : Nat × Nat :=
  (if m = Binary.fractionSize && -1074 < e then 4 * m - 1 else 4 * m - 2, 4 * m + 2)

/-- The best decimal on the grid of `10 ^ scale`, if one reads back. -/
def onGrid (m : Nat) (e scale : Int) : Option Nat :=
  let a := Nat.pow 2 (e - 2).toNat * Nat.pow 10 (-scale).toNat
  let b := Nat.pow 10 scale.toNat * Nat.pow 2 (2 - e).toNat
  let below := 4 * m * a / b
  let above := below + 1
  let ends := interval m e
  let closed := m % 2 == 0
  let hits (c : Nat) : Bool :=
    if closed then ends.1 * a ≤ c * b && c * b ≤ ends.2 * a
    else ends.1 * a < c * b && c * b < ends.2 * a
  let toBelow := 4 * m * a - below * b
  let toAbove := above * b - 4 * m * a
  match hits below, hits above with
  | true, true =>
    if toBelow < toAbove then some below
    else if toAbove < toBelow then some above
    else if below % 2 = 0 then some below else some above
  | true, false => some below
  | false, true => some above
  | false, false => none

/-- The first grid with a hit, from `count` digits on. -/
def search (m : Nat) (e k : Int) : Nat → Nat → Decimal
  | 0, count => ⟨(onGrid m e (k - count)).getD 0, k - count⟩
  | n + 1, count =>
    match onGrid m e (k - count) with
    | some digits => ⟨digits, k - count⟩
    | none => search m e k n (count + 1)

/-- The fewest digits that read back as `m * 2 ^ e`, for a positive mantissa. -/
def decimal (m : Nat) (e : Int) : Decimal :=
  (search m e (size m e) 16 1).strip 20

end Shortest

/-- How the decimal of a number is set out: positional while the exponent of its
first digit lies in a range, with an exponent part otherwise. -/
structure NumeralStyle where
  /-- The least exponent of the first digit that is written positionally. -/
  least : Int
  /-- The least exponent above that which is not. -/
  limit : Int
  /-- The fewest digits of an exponent. -/
  exponentWidth : Nat

namespace NumeralStyle

/-- Numbers from `0.0001` up to `10 ^ 16` are positional. -/
def plain : NumeralStyle := ⟨-4, 16, 2⟩

/-- Digits with a point after the first `before` of them; zeros fill what is
missing on either side, and one digit at least stands on each. -/
def positional (digits : List Char) (before : Int) : List Char :=
  if before ≤ 0 then '0' :: '.' :: List.replicate (-before).toNat '0' ++ digits
  else
    let count := before.toNat
    let whole := digits.take count ++ List.replicate (count - digits.length) '0'
    let part := digits.drop count
    whole ++ '.' :: (if part.isEmpty then ['0'] else part)

/-- Digits with a point after the first and an exponent part. -/
def scientific (style : NumeralStyle) (digits : List Char) (exponent : Int) : List Char :=
  let part := digits.drop 1
  let point := if part.isEmpty then [] else '.' :: part
  let sign := if exponent < 0 then '-' else '+'
  digits.take 1 ++ point ++ 'e' :: sign :: paddedDigits style.exponentWidth exponent.natAbs

/-- The text of a positive decimal. -/
def write (style : NumeralStyle) (d : Decimal) : List Char :=
  let digits := d.text
  let exponent := d.scale + digits.length - 1
  if style.least ≤ exponent && exponent < style.limit then positional digits (exponent + 1)
  else scientific style digits exponent

end NumeralStyle

/-- The shortest text of a double that reads back as it. -/
def shortestText (x : Float) : String :=
  match Binary.read x with
  | .notANumber => "nan"
  | .infinite negative => if negative then "-inf" else "inf"
  | .finite d =>
    let body :=
      if d.mantissa = 0 then ['0', '.', '0']
      else NumeralStyle.plain.write (Shortest.decimal d.mantissa d.exponent)
    String.ofList (if d.negative then '-' :: body else body)

end TimingDiagram
