import TimingDiagram.Proofs.Number.Exact
import TimingDiagram.Proofs.Outcome

/-! Arithmetic that does not fail. Whatever the rounding, there are values that the computation of a
figure never leaves: operations on them and with small whole numbers give such values again. In exact
arithmetic these are all values. -/
namespace TimingDiagram

/-- Arithmetic with values on which the operations of a figure succeed. -/
class FirmScalar (K : Type) [Add K] [Sub K] [Mul K] [Div K] [Max K] [Min K] [Scalar K] where
  /-- A value that passes every check. -/
  Firm : K → Prop
  /-- A value that gives a firm one together with a firm one. -/
  Operand : K → Prop
  /-- A value that can be divided by. -/
  Divisor : K → Prop
  /-- A position on the time axis. -/
  Position : K → Prop
  /-- A whole number that is not too large to compute with. -/
  Small : Int → Prop
  /-- A number of values that there is room for. -/
  Storable : Nat → Prop
  small_of_le {m n : Int} : Small n → 0 ≤ m → m ≤ n → Small m
  small_eight : Small 8
  storable_zero : Storable 0
  operand_of_firm {a : K} : Firm a → Operand a
  operand_whole {n : Int} : Small n → Operand (Scalar.whole n)
  firm_fraction (n : Int) (d : Nat) : Firm (Scalar.fraction n d)
  firm_add {a b : K} : Firm a → Operand b → Firm (a + b)
  firm_add' {a b : K} : Operand a → Firm b → Firm (a + b)
  firm_sub {a b : K} : Firm a → Operand b → Firm (a - b)
  firm_mul {a b : K} : Firm a → Operand b → Firm (a * b)
  firm_mul' {a b : K} : Operand a → Firm b → Firm (a * b)
  firm_div {a b : K} : Firm a → Divisor b → Firm (a / b)
  firm_max {a b : K} : Firm a → Firm b → Firm (max a b)
  firm_min {a b : K} : Firm a → Firm b → Firm (min a b)
  divisor_two : Divisor (Scalar.whole 2)
  position_whole {n : Int} : Small n → Position (Scalar.whole n)
  position_halfway {n : Int} : Small n → Position (Scalar.whole n + Scalar.fraction 1 2)
  position_centre {m n : Int} : Small m → Small n →
    Position (Scalar.whole m + Scalar.whole n / Scalar.fraction 2 1)
  /-- A position can be counted from a cycle. -/
  operand_sub {c : K} {n : Int} : Position c → Small n → Operand (c - Scalar.whole n)
  truncate_position {c : K} : Position c →
    ∃ i, Scalar.truncate c = .ok i ∧ Operand (c - Scalar.whole i.toNat)
  checked_firm {a : K} : Firm a → Scalar.checked a = .ok a
  firm_toFraction {a : K} : Operand a → Firm (Scalar.toFraction a)
  filled_firm {n : Nat} {a : K} : Storable n → Firm a → Scalar.filled n a = .ok (List.replicate n a)
  fixed_firm (places : Nat) {a : K} : Firm a → Succeeds (Scalar.fixed places a)
  compact_firm (places : Nat) {a : K} : Firm a → Succeeds (Scalar.compact places a)

namespace FirmScalar

section Laws

variable {K : Type} [Add K] [Sub K] [Mul K] [Div K] [Max K] [Min K] [Scalar K] [FirmScalar K]

theorem firm_zero : Firm (Scalar.zero : K) := firm_fraction 0 1

theorem operand_digit {n : Int} (hLow : 0 ≤ n) (hHigh : n ≤ 8) : Operand (Scalar.whole n : K) :=
  operand_whole (small_of_le small_eight hLow hHigh)

theorem allChecked_firm {xs : List K} (h : ∀ x ∈ xs, Firm x) : Scalar.allChecked xs = .ok xs := by
  induction xs with
  | nil => rfl
  | cons x xs ih =>
      obtain ⟨hFirst, hRest⟩ := List.forall_mem_cons.mp h
      have hOthers := ih hRest
      rw [Scalar.allChecked] at hOthers ⊢
      rw [List.mapM_cons, checked_firm hFirst, hOthers]
      rfl

theorem firm_largest {d : K} {xs : List K} (hd : Firm d) (h : ∀ x ∈ xs, Firm x) :
    Firm (Scalar.largest d xs) := by
  cases xs with
  | nil => exact hd
  | cons x xs =>
      obtain ⟨hFirst, hRest⟩ := List.forall_mem_cons.mp h
      exact List.foldlRecOn xs max hFirst fun _ hb _ ha => firm_max hb (hRest _ ha)

end Laws

variable {K : Type} [Field K] [LinearOrder K] [IsStrictOrderedRing K] [FloorRing K] [Scalar K]
  [ExactScalar K]

/-- Nothing fails in exact arithmetic. -/
instance : FirmScalar K where
  Firm _ := True
  Operand _ := True
  Divisor _ := True
  Position _ := True
  Small _ := True
  Storable _ := True
  small_of_le _ _ _ := trivial
  small_eight := trivial
  storable_zero := trivial
  operand_of_firm _ := trivial
  operand_whole _ := trivial
  firm_fraction _ _ := trivial
  firm_add _ _ := trivial
  firm_add' _ _ := trivial
  firm_sub _ _ := trivial
  firm_mul _ _ := trivial
  firm_mul' _ _ := trivial
  firm_div _ _ := trivial
  firm_max _ _ := trivial
  firm_min _ _ := trivial
  divisor_two := trivial
  position_whole _ := trivial
  position_halfway _ := trivial
  position_centre _ _ := trivial
  operand_sub _ _ := trivial
  truncate_position _ := ⟨_, ExactScalar.truncate_eq _, trivial⟩
  checked_firm _ := ExactScalar.checked_eq _
  firm_toFraction _ := trivial
  filled_firm _ _ := ExactScalar.filled_eq _ _
  fixed_firm places a _ := ExactScalar.fixed_ok places a
  compact_firm places a _ := ExactScalar.compact_ok places a

end FirmScalar
end TimingDiagram
