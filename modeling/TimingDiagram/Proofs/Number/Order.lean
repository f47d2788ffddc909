import Mathlib.Tactic.SplitIfs
import TimingDiagram.Number.Basic
import TimingDiagram.Proofs.Number.Bits

/-! The order of numbers. It reads the same in both directions, and only what is no number has no order
to another one. -/
namespace TimingDiagram

open Float.Model (UnpackedFloat)

namespace Number

/-- Whether a number stands for the result of an operation that has none. -/
def IsNaN : Number → Prop
  | .whole _ => False
  | .real x => x.isNaN

section Unpacked

variable (a b : UnpackedFloat)

theorem compare_unpacked_swap : (b.compare a).map Ordering.swap = a.compare b := by
  have hMagnitude (m n : Nat) (e f : Int) :
      ((compare f e).then (compare n m)).swap = (compare e f).then (compare m n) := by
    rw [Ordering.swap_then, Int.compare_swap, Nat.compare_swap]
  rcases a with (_ | _) | _ | _ | ⟨_ | _, m, e, _⟩ <;>
    rcases b with (_ | _) | _ | _ | ⟨_ | _, n, f, _⟩ <;>
    try rfl
  · exact congrArg (some ∘ Ordering.swap) (hMagnitude m n e f)
  · exact congrArg some (hMagnitude m n e f)

theorem compare_unpacked_eq_none_iff : a.compare b = none ↔ a.isNaN ∨ b.isNaN := by
  have hNone : (a.compare b).isNone = (a.isNaN || b.isNaN) := by
    rcases a with (_ | _) | _ | _ | ⟨_ | _, _, _, _⟩ <;>
      rcases b with (_ | _) | _ | _ | ⟨_ | _, _, _, _⟩ <;> rfl
  rw [← Option.isNone_iff_eq_none, hNone, Bool.or_eq_true]

end Unpacked

/-- Two doubles are in the order of what they stand for. -/
theorem compareReal_eq (x y : Float) :
    compareReal x y = x.toModel.unpack.compare y.toModel.unpack := by
  have hLess (x y : Float) : x < y ↔ x.toModel.unpack.compare y.toModel.unpack = some .lt := by
    change Float.lt x y = true ↔ _
    rw [Float.lt, decide_eq_true_iff]
    change (x.toModel.unpack.compare y.toModel.unpack == some .lt) = true ↔ _
    simp
  have hSame : (x == y) = true ↔ x.toModel.unpack.compare y.toModel.unpack = some .eq := by
    change (x.toModel.unpack.compare y.toModel.unpack == some .eq) = true ↔ _
    simp
  have hSwap := compare_unpacked_swap y.toModel.unpack x.toModel.unpack
  simp only [compareReal, hLess, hSame, ← hSwap]
  rcases x.toModel.unpack.compare y.toModel.unpack with _ | _ | _ | _ <;> rfl

/-- A double is no number when its bits are those of none. -/
theorem isNaN_iff_read (x : Float) : x.isNaN ↔ Binary.read x = .notANumber := by
  rw [Binary.read_eq_ofParts]
  change x.toModel.unpack.isNaN = true ↔ _
  cases x.toModel.unpack with
  | notANumber => exact iff_of_true rfl rfl
  | infinity | zero | finite => exact iff_of_false Bool.false_ne_true Binary.Reading.noConfusion

/-- What precedes another number is followed by it. -/
theorem order_swap (a b : Number) : (b.order a).map Ordering.swap = a.order b := by
  cases a with
  | whole m =>
      cases b with
      | whole n => exact congrArg some (Int.compare_swap n m)
      | real y =>
          change ((compareWhole m y).map Ordering.swap).map Ordering.swap = compareWhole m y
          cases compareWhole m y <;> simp
  | real x =>
      cases b with
      | whole n => rfl
      | real y =>
          change (compareReal y x).map Ordering.swap = compareReal x y
          rw [compareReal_eq, compareReal_eq, compare_unpacked_swap]

theorem compareWhole_eq_none_iff {n : Int} {x : Float} : compareWhole n x = none ↔ x.isNaN := by
  rw [isNaN_iff_read, compareWhole]
  cases Binary.read x <;> simp

/-- Two numbers are without an order when one of them is no number. -/
theorem order_eq_none_iff (a b : Number) : a.order b = none ↔ a.IsNaN ∨ b.IsNaN := by
  cases a with
  | whole m =>
      cases b with
      | whole n => simp [order, IsNaN]
      | real y => simp [order, IsNaN, compareWhole_eq_none_iff]
  | real x =>
      cases b with
      | whole n => simp [order, IsNaN, compareWhole_eq_none_iff]
      | real y =>
          change compareReal x y = none ↔ _
          rw [compareReal_eq, compare_unpacked_eq_none_iff]
          rfl

end Number
end TimingDiagram
