import TimingDiagram.Proofs.Layout.Heights

/-! Whether the lanes go down. They do where a lane with its spacing has a height and no group moves
the lanes after it up; without groups they do only there. -/
namespace TimingDiagram

variable {K : Type} [Field K] [LinearOrder K] [IsStrictOrderedRing K] {o : Options K}

namespace Row

theorem tops_pairwise (hStep : 0 < o.waveHeight + o.lineSpacing) (hMargin : 0 ≤ o.groupMargin)
    (y : K) (rows : List Row) :
    (∀ top ∈ tops o y rows, y ≤ top) ∧ (tops o y rows).Pairwise (· < ·) := by
  induction rows generalizing y with
  | nil => exact ⟨nofun, .nil⟩
  | cons row rows ih =>
      cases row with
      | lane =>
          obtain ⟨hBelow, hOrder⟩ := ih (y + o.waveHeight + o.lineSpacing)
          have hPast : y < y + o.waveHeight + o.lineSpacing := by
            rw [add_assoc]
            exact lt_add_of_pos_right y hStep
          have hLower : ∀ top ∈ tops o (y + o.waveHeight + o.lineSpacing) rows, y < top :=
            fun top hTop => hPast.trans_le (hBelow top hTop)
          exact ⟨List.forall_mem_cons.mpr ⟨le_rfl, fun top hTop => (hLower top hTop).le⟩,
            List.pairwise_cons.mpr ⟨hLower, hOrder⟩⟩
      | margin =>
          obtain ⟨hBelow, hOrder⟩ := ih (y + o.groupMargin)
          exact ⟨fun top hTop => (le_add_of_nonneg_right hMargin).trans (hBelow top hTop), hOrder⟩

omit [LinearOrder K] [IsStrictOrderedRing K] in
/-- Among lanes alone each one stands so many lanes below the first. -/
theorem getElem?_tops_of_lanes {rows : List Row} (h : rows.count .margin = 0) {slot : Nat}
    {y top : K} (hTop : (tops o y rows)[slot]? = some top) :
    top = y + slot * (o.waveHeight + o.lineSpacing) := by
  have hBelow : slot < rows.count .lane := by
    rw [← length_tops o y]
    exact (List.getElem?_eq_some_iff.mp hTop).1
  obtain ⟨before, after, rfl, rfl⟩ := exists_split hBelow
  rw [List.count_append, Nat.add_eq_zero_iff] at h
  rw [getElem?_tops, past_eq_add, h.1, Nat.cast_zero, zero_mul, add_zero] at hTop
  exact (Option.some.inj hTop).symm

end Row

namespace Layout

variable [FloorRing K] [Scalar K] [ExactScalar K] {d : Document K} {l : Layout K}

/-- Lanes go down where each takes some height and no margin is negative. -/
theorem descends_of_layout (h : (d.layout o).outcome = .ok l)
    (hStep : 0 < o.waveHeight + o.lineSpacing) (hMargin : 0 ≤ o.groupMargin) :
    (l.signals.map PlacedSignal.y).Pairwise (· < ·) := by
  have hTops := tops_of_layout h
  have hSlots := slots_of_layout h
  rw [Item.topsAll_eq] at hTops
  have hOrder := (Row.tops_pairwise hStep hMargin (l.schemaY + o.schemaTop) (Item.rowsAll d.items)).2
  rw [List.pairwise_map] at hSlots ⊢
  refine hSlots.imp_of_mem fun {s t} hs ht hLess => ?_
  obtain ⟨hFirst, hTop⟩ := List.getElem?_eq_some_iff.mp (hTops s hs)
  obtain ⟨hSecond, hNext⟩ := List.getElem?_eq_some_iff.mp (hTops t ht)
  rw [← hTop, ← hNext]
  exact List.pairwise_iff_getElem.mp hOrder _ _ hFirst hSecond hLess

/-- Where no group holds a lane, two signals or more go down exactly when a lane with its spacing
takes some height. -/
theorem descends_iff_of_layout (h : (d.layout o).outcome = .ok l)
    (hGroups : Item.brackets d.items = []) :
    (l.signals.map PlacedSignal.y).Pairwise (· < ·) ↔
      l.signals.length ≤ 1 ∨ 0 < o.waveHeight + o.lineSpacing := by
  have hTops := tops_of_layout h
  have hSlots := slots_of_layout h
  rw [Item.brackets_eq_bracketsAll] at hGroups
  have hNone : (Item.rowsAll d.items).count .margin = 0 := by
    rw [(Item.count_rowsAll d.items).2, hGroups, List.length_nil]
  have hPlace : ∀ s ∈ l.signals,
      s.y = l.schemaY + o.schemaTop + s.slot * (o.waveHeight + o.lineSpacing) := fun s hs =>
    Row.getElem?_tops_of_lanes hNone (Item.topsAll_eq o _ d.items ▸ hTops s hs)
  have hLower : ∀ s ∈ l.signals, ∀ t ∈ l.signals, s.slot < t.slot →
      (s.y < t.y ↔ 0 < o.waveHeight + o.lineSpacing) := by
    intro s hs t ht hLess
    have hBetween : (0 : K) < t.slot - s.slot := sub_pos.mpr (Nat.cast_lt.mpr hLess)
    rw [hPlace s hs, hPlace t ht, add_lt_add_iff_left, ← sub_pos, ← sub_mul,
      mul_pos_iff_of_pos_left hBetween]
  rw [List.pairwise_map] at hSlots ⊢
  constructor
  · intro hOrder
    match hSignals : l.signals with
    | [] => exact .inl (Nat.zero_le 1)
    | [_] => exact .inl le_rfl
    | s :: t :: rest =>
        rw [hSignals] at hOrder hSlots hLower
        have hLess := List.rel_of_pairwise_cons hSlots List.mem_cons_self
        exact .inr ((hLower s (by simp) t (by simp) hLess).mp
          (List.rel_of_pairwise_cons hOrder List.mem_cons_self))
  · rintro (hFew | hStep)
    · match hSignals : l.signals with
      | [] => exact .nil
      | [s] => exact List.pairwise_singleton _ s
      | s :: t :: rest =>
          rw [hSignals, List.length_cons, List.length_cons] at hFew
          omega
    · exact hSlots.imp_of_mem fun hs ht hLess => (hLower _ hs _ ht hLess).mpr hStep

end Layout
end TimingDiagram
