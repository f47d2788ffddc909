import TimingDiagram.Number.Basic

/-! The arithmetic that a figure is computed in. Placement and drawing are written
once over any type with ring operations, a division, an order with the larger and the
smaller of two values, and the operations of `Scalar`. Figures are computed over
`Quantity`; over a field the same definitions give the values that exact arithmetic
would. -/
namespace TimingDiagram

/-- What placement needs besides `+`, `-`, `*`, `/`, `<`, `≤`, `max`, `min` and `==`. -/
class Scalar (K : Type) where
  /-- A number of a document. -/
  ofNumber : Number → K
  /-- A text in the place of a number. -/
  ofText : String → K
  /-- Whether a text stands in the place of a number. -/
  isText : K → Bool
  /-- The constant `num / den`, held as a fraction also where it is whole. -/
  fraction : Int → Nat → K
  /-- The same value, held as a fraction. -/
  toFraction : K → K
  /-- The value itself, unless the arithmetic that led to it has failed. -/
  checked : K → Except Fault K
  /-- The value itself, if it is a number. -/
  number : K → Except Fault K
  /-- So many copies of a value, held as fractions, if there is room for them. -/
  filled : Nat → K → Except Fault (List K)
  floor : K → Except Fault Int
  truncate : K → Except Fault Int
  /-- The text with a fixed count of decimals. -/
  fixed : Nat → K → Except Fault String
  /-- The text with at most so many decimals and no superfluous zeros. -/
  compact : Nat → K → Except Fault String
  /-- The full text. -/
  text : K → String
  /-- The direction of the vector with the second coordinate first. -/
  angle : K → K → K
  cos : K → K
  sin : K → K

namespace Scalar

variable {K : Type} [Scalar K]

def whole (n : Int) : K := ofNumber (.whole n)

def zero : K := fraction 0 1

/-- The largest of some values, or a default when there are none. -/
def largest [Max K] (default : K) : List K → K
  | [] => default
  | x :: rest => rest.foldl max x

/-- Some values, unless one of them has failed; the first failure counts. -/
def allChecked (xs : List K) : Except Fault (List K) := xs.mapM checked

end Scalar
end TimingDiagram
