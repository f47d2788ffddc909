import Mathlib.Algebra.Order.Floor.Ring
import Mathlib.Analysis.SpecialFunctions.Complex.Arg
import TimingDiagram.Number.Fixed
import TimingDiagram.Number.Scalar

/-! Exact arithmetic. Over an ordered field with floors the operations of placement mean what
they say: constants are their values, nothing is rounded and nothing fails. The reals are such
a field. -/
namespace TimingDiagram

/-- The operations of placement agree with those of the field. -/
class ExactScalar (K : Type) [Field K] [LinearOrder K] [IsStrictOrderedRing K] [FloorRing K]
    [Scalar K] : Prop where
  ofNumber_whole (n : Int) : Scalar.ofNumber (.whole n) = (n : K)
  ofNumber_real {x : Float} {d : Dyadic} (h : Binary.read x = .finite d) :
    Scalar.ofNumber (.real x) = (d.signedNum / d.den : K)
  isText_eq (x : K) : Scalar.isText x = false
  fraction_eq (n : Int) (d : Nat) : Scalar.fraction n d = (n / d : K)
  toFraction_eq (x : K) : Scalar.toFraction x = x
  checked_eq (x : K) : Scalar.checked x = .ok x
  number_eq (x : K) : Scalar.number x = .ok x
  filled_eq (n : Nat) (x : K) : Scalar.filled n x = .ok (List.replicate n x)
  floor_eq (x : K) : Scalar.floor x = .ok ⌊x⌋
  truncate_eq (x : K) : Scalar.truncate x = .ok (if 0 ≤ x then ⌊x⌋ else ⌈x⌉)
  fixed_ok (places : Nat) (x : K) : ∃ s, Scalar.fixed places x = .ok s
  compact_ok (places : Nat) (x : K) : ∃ s, Scalar.compact places x = .ok s

attribute [simp] ExactScalar.ofNumber_whole ExactScalar.isText_eq ExactScalar.fraction_eq
  ExactScalar.toFraction_eq ExactScalar.checked_eq ExactScalar.number_eq ExactScalar.filled_eq
  ExactScalar.floor_eq ExactScalar.truncate_eq

namespace Scalar

variable {K : Type} [Field K] [LinearOrder K] [IsStrictOrderedRing K] [FloorRing K] [Scalar K]
  [ExactScalar K]

@[simp] theorem whole_eq (n : Int) : (whole n : K) = n := ExactScalar.ofNumber_whole n

@[simp] theorem zero_eq : (zero : K) = 0 := by simp [zero]

@[simp] theorem allChecked_eq (xs : List K) : allChecked xs = .ok xs := by
  induction xs with
  | nil => rfl
  | cons x xs ih =>
      rw [allChecked] at ih ⊢
      rw [List.mapM_cons, ih, ExactScalar.checked_eq]
      rfl

end Scalar

namespace ExactReal

/-- The integer nearest to a real, a half going to the even neighbour. -/
noncomputable def roundEven (x : ℝ) : Int :=
  if x - ⌊x⌋ < 1 / 2 then ⌊x⌋
  else if 1 / 2 < x - ⌊x⌋ then ⌊x⌋ + 1
  else if ⌊x⌋ % 2 = 0 then ⌊x⌋ else ⌊x⌋ + 1

/-- A real rounded to so many decimals. -/
noncomputable def decimal (places : Nat) (x : ℝ) : List Char :=
  let body := Fixed.unsigned places (roundEven (|x| * 10 ^ places)).toNat
  if x < 0 then '-' :: body else body

/-- The real that a number of a document is; what is no number counts as zero. -/
noncomputable def ofNumber : Number → ℝ
  | .whole n => n
  | .real x =>
    match Binary.read x with
    | .finite d => d.signedNum / d.den
    | _ => 0

/-- The operations of placement on the reals. A real has no full text, so that it is cut. -/
noncomputable instance : Scalar ℝ where
  ofNumber := ofNumber
  ofText _ := 0
  isText _ := false
  fraction n d := n / d
  toFraction x := x
  checked x := .ok x
  number x := .ok x
  filled n x := .ok (List.replicate n x)
  floor x := .ok ⌊x⌋
  truncate x := .ok (if 0 ≤ x then ⌊x⌋ else ⌈x⌉)
  fixed places x := .ok (String.ofList (decimal places x))
  compact places x := .ok (String.ofList (Fixed.compact (decimal places x)))
  text x := String.ofList (Fixed.compact (decimal 17 x))
  angle y x := Complex.arg ⟨x, y⟩
  cos := Real.cos
  sin := Real.sin

instance : ExactScalar ℝ where
  ofNumber_whole _ := rfl
  ofNumber_real h := by
    change ofNumber _ = _
    rw [ofNumber, h]
  isText_eq _ := rfl
  fraction_eq _ _ := rfl
  toFraction_eq _ := rfl
  checked_eq _ := rfl
  number_eq _ := rfl
  filled_eq _ _ := rfl
  floor_eq _ := rfl
  truncate_eq _ := rfl
  fixed_ok _ _ := ⟨_, rfl⟩
  compact_ok _ _ := ⟨_, rfl⟩

end ExactReal
end TimingDiagram
