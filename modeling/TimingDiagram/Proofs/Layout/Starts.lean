import TimingDiagram.Proofs.Layout.Axis
import TimingDiagram.Proofs.Number.Zeros
import TimingDiagram.Value.Quantity

/-! The time axis in doubles. What is added to the offset of a column to find its start is its width times
zero, and so a column with a finite width starts at its offset, to the bit. -/
namespace TimingDiagram

open Binary

variable [Memory]

namespace Quantity

variable {a b : Quantity}

/-- A quantity that is a finite fraction. -/
def IsFinite (a : Quantity) : Prop := ∃ x d, a = known (.real x) ∧ read x = .finite d

/-- A fraction that is not the negative zero, and so is kept when a zero is added to it. -/
def Settled (a : Quantity) : Prop := ∃ x, a = known (.real x) ∧ x.toModel.unpack ≠ .zero .negative

theorem settled_zero : (Scalar.zero : Quantity).Settled := by
  refine ⟨Binary.ofRatio false 0 1, rfl, ?_⟩
  have hZero : (Binary.ofRatio false 0 1).toModel.unpack = .zero .positive := rfl
  rw [hZero]
  exact nofun

omit [Memory] in
theorem Settled.add (ha : a.Settled) (x : Float) : (a + known (.real x)).Settled := by
  obtain ⟨y, rfl, hy⟩ := ha
  exact ⟨y + x, rfl, unpack_add_ne hy x⟩

theorem Settled.add_zero_mul (ha : a.Settled) (hb : b.IsFinite) : a + Scalar.whole 0 * b = a := by
  obtain ⟨x, rfl, hx⟩ := ha
  obtain ⟨w, d, rfl, hw⟩ := hb
  have hZero : (Number.nearest 0).toModel.unpack = .zero .positive := rfl
  obtain ⟨s, hs⟩ := unpack_zero_mul hZero hw
  change known (.real (x + Number.nearest 0 * w)) = known (.real x)
  rw [add_zero_eq hx hs]

theorem filled_eq_ok {n : Nat} {as : List Quantity} (h : filled n a = .ok as) :
    ∃ x, as = List.replicate n (known (.real x)) := by
  rw [filled] at h
  split_ifs at h
  · cases h
  · obtain ⟨_, _, h⟩ := bind_eq_ok_iff.mp h
    obtain ⟨_, hFraction, ⟨⟩⟩ := bind_eq_ok_iff.mp h
    obtain ⟨_, _, hFraction⟩ := bind_eq_ok_iff.mp hFraction
    obtain ⟨x, _, ⟨⟩⟩ := bind_eq_ok_iff.mp hFraction
    exact ⟨x, rfl⟩

theorem checked_toFraction_eq_ok (h : Scalar.checked (Scalar.toFraction a) = .ok b) :
    ∃ x, b = known (.real x) := by
  obtain ⟨_, hFraction, ⟨⟩⟩ := bind_eq_ok_iff.mp h
  obtain ⟨v, hv, hx⟩ := bind_eq_ok_iff.mp hFraction
  obtain ⟨x, hx, ⟨⟩⟩ := bind_eq_ok_iff.mp hx
  exact ⟨x, congrArg Quantity.mk hFraction⟩

end Quantity

namespace Grid

variable {o : Options Quantity} {widths : List Quantity} {signals : List (Compiled Quantity)}

omit [Memory] in
theorem settled_runningSums (hWidths : ∀ w ∈ widths, ∃ x, w = .known (.real x)) {start : Quantity}
    (h : start.Settled) : ∀ a ∈ runningSums start widths, a.Settled := by
  induction widths generalizing start with
  | nil => exact List.forall_mem_singleton.mpr h
  | cons w widths ih =>
      obtain ⟨⟨x, rfl⟩, hRest⟩ := List.forall_mem_cons.mp hWidths
      exact List.forall_mem_cons.mpr ⟨h, ih hRest (h.add x)⟩

theorem settled_offset (hWidths : ∀ w ∈ widths, ∃ x, w = .known (.real x)) (i : Nat) :
    ((ofWidths o widths).offset i).Settled := by
  rw [offset, Array.getD_eq_getD_getElem?, ofWidths, List.getElem?_toArray]
  cases hOffset : (runningSums Scalar.zero widths)[i]? with
  | none => exact Quantity.settled_zero
  | some a => exact settled_runningSums hWidths Quantity.settled_zero a (List.mem_of_getElem? hOffset)

/-- There is a column for every cycle of the longest signal, and all widths are fractions. -/
theorem fractions_of_columnWidths (h : columnWidths signals o = .ok widths) :
    widths.length = Compiled.longest signals ∧ ∀ w ∈ widths, ∃ x, w = .known (.real x) := by
  rw [columnWidths] at h
  obtain ⟨full, hFull, h⟩ := bind_eq_ok_iff.mp h
  obtain ⟨x, rfl⟩ := Quantity.filled_eq_ok hFull
  split_ifs at h
  · obtain ⟨shrunk, hShrunk, ⟨⟩⟩ := bind_eq_ok_iff.mp h
    obtain ⟨y, rfl⟩ := Quantity.checked_toFraction_eq_ok hShrunk
    constructor
    · rw [List.length_zipWith, List.length_replicate,
        Compiled.length_shrinkable fun s hs => Compiled.length_le_longest hs, Nat.min_self]
    · intro w hw
      obtain ⟨i, hi, rfl⟩ := List.getElem_of_mem hw
      rw [List.getElem_zipWith, List.getElem_replicate]
      split_ifs
      · exact ⟨y, rfl⟩
      · exact ⟨x, rfl⟩
  · cases h
    refine ⟨List.length_replicate, fun w hw => ⟨x, List.eq_of_mem_replicate hw⟩⟩

/-- The start of a column is computed from its offset and its width. -/
theorem xAt_whole (g : Grid Quantity) {i : Nat} (h : i < g.total) :
    g.xAt (Scalar.whole i) = .ok (g.offset i + Scalar.whole 0 * g.columnWidth i) := by
  have hSome : g.total ≠ 0 := by omega
  have hBefore : ¬ (Scalar.whole g.total : Quantity) ≤ Scalar.whole i := by
    rintro (hOrder | hOrder)
    · have := Int.compare_eq_lt.mp (Option.some.inj hOrder)
      omega
    · have := Int.compare_eq_eq.mp (Option.some.inj hOrder)
      omega
  have hWithin : (Scalar.whole i : Quantity) - Scalar.whole i = Scalar.whole 0 := by
    change Quantity.known (.whole ((i : Int) - i)) = .known (.whole 0)
    rw [sub_self]
  rw [xAt, if_neg hSome, if_neg hBefore]
  change Except.ok (g.within (i : Int).toNat (Scalar.whole i)) = _
  rw [within, Int.toNat_natCast, hWithin]

/-- A column with a finite width starts at its offset. -/
theorem xAt_of_isFinite {g : Grid Quantity} (hGrid : g = ofWidths o widths)
    (hWidths : ∀ w ∈ widths, ∃ x, w = .known (.real x)) {i : Nat} (h : i < g.total)
    (hFinite : (g.columnWidth i).IsFinite) : g.xAt (Scalar.whole i) = .ok (g.offset i) := by
  rw [xAt_whole g h, Quantity.Settled.add_zero_mul _ hFinite]
  rw [hGrid]
  exact settled_offset hWidths i

end Grid
end TimingDiagram
