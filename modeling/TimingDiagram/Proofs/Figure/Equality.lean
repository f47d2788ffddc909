import TimingDiagram.Figure.Diagram

/-! Figures are compared part by part. Where every number equals itself, so does every figure; the
values in its styles are compared to the bit and equal themselves in any case. -/
namespace TimingDiagram

theorem Number.same_self (n : Number) : n.same n = true := by
  cases n <;> exact beq_self_eq_true _

namespace Value

mutual

theorem same_self (v : Value) : v.same v = true := by
  cases v with
  | null => rfl
  | bool b => exact beq_self_eq_true b
  | number n => exact n.same_self
  | text s => exact beq_self_eq_true s
  | list items => exact sameItems_self items
  | mapping entries => exact sameEntries_self entries

theorem sameItems_self (items : List Value) : sameItems items items = true := by
  cases items with
  | nil => rfl
  | cons v rest => rw [sameItems, same_self v, sameItems_self rest, Bool.and_self]

theorem sameEntries_self (entries : List (String × Value)) : sameEntries entries entries = true := by
  cases entries with
  | nil => rfl
  | cons entry rest =>
      rw [sameEntries, same_self entry.2, sameEntries_self rest, beq_self_eq_true, Bool.and_self,
        Bool.and_self]

end

end Value

variable {K : Type} [BEq K] [ReflBEq K]

instance : ReflBEq (Point K) where
  rfl {p} := by
    change (p.x == p.x && p.y == p.y) = true
    rw [beq_self_eq_true, beq_self_eq_true, Bool.and_self]

instance : ReflBEq (Primitive K) where
  rfl {p} := by
    change (p.kind = p.kind && p.points == p.points && p.text == p.text &&
      Value.sameEntries p.style p.style && p.role = p.role && p.closed == p.closed) = true
    simp [Value.sameEntries_self]

/-- A figure equals itself. -/
instance : ReflBEq (Diagram K) where
  rfl {d} := by
    change (d.primitives == d.primitives && d.width == d.width && d.height == d.height &&
      decide (d.warnings = d.warnings)) = true
    simp

end TimingDiagram
