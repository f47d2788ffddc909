import TimingDiagram.Proofs.Number.Exact
import TimingDiagram.Proofs.Outcome
import TimingDiagram.Value.Quantity

/-! Checks that change nothing. A value that passes its check is the value itself, in the arithmetic
that figures are computed in as well as in exact arithmetic. -/
namespace TimingDiagram

/-- A check gives back the value that it is made on, or fails. -/
class CheckedScalar (K : Type) [Scalar K] : Prop where
  eq_of_checked {x y : K} : Scalar.checked x = .ok y → y = x

instance [Memory] : CheckedScalar Quantity where
  eq_of_checked h := by
    obtain ⟨_, _, h⟩ := bind_eq_ok_iff.mp h
    cases h
    rfl

instance {K : Type} [Field K] [LinearOrder K] [IsStrictOrderedRing K] [FloorRing K] [Scalar K]
    [ExactScalar K] : CheckedScalar K where
  eq_of_checked h := by
    rw [ExactScalar.checked_eq] at h
    exact (Except.ok.inj h).symm

end TimingDiagram
