import Mathlib.Data.List.Nodup
import TimingDiagram.Proofs.Wave.Lexing
import TimingDiagram.Sample.Generate

/-! What is drawn at random. Of a source of randomness nothing is assumed but that a number drawn
below a bound is below it, and that so are two numbers that are drawn together, which differ. Then the
symbols of a wave are the ones to choose from. The generator is such a source, whatever its words. -/
namespace TimingDiagram

/-- A source of randomness that keeps to the bounds it is asked for. -/
structure Draws.Bounded {σ : Type} (d : Draws σ) : Prop where
  below : ∀ n s, 0 < n → (d.below n s).1 < n
  pair : ∀ n s, 2 ≤ n → (d.pair n s).1.1 < n ∧ (d.pair n s).1.2 < n
  distinct : ∀ n s, 2 ≤ n → (d.pair n s).1.1 ≠ (d.pair n s).1.2

namespace Twister

theorem drawUpTo_le (limit mask fuel : Nat) (t : Twister) : (drawUpTo limit mask fuel t).1 ≤ limit := by
  induction fuel generalizing t with
  | zero => exact Nat.zero_le limit
  | succ fuel ih =>
      rw [drawUpTo]
      dsimp only
      split_ifs with h
      · exact h
      · exact ih _

theorem below_lt {n : Nat} (h : 0 < n) (t : Twister) : (below n t).1 < n := by
  rw [below]
  split_ifs
  · exact h
  · have hLimit := drawUpTo_le (n - 1) (maskFor (n - 1)) 100000 t
    omega

/-- A step of the shuffle exchanges two entries. -/
theorem exchange_perm (p : Array Nat) {i j : Nat} (hi : i < p.size) (hj : j < p.size) :
    ((p.setIfInBounds i (p.getD j 0)).setIfInBounds j (p.getD i 0)).Perm p := by
  have hSwap : (p.setIfInBounds i (p.getD j 0)).setIfInBounds j (p.getD i 0) = p.swap i j := by
    simp [Array.swap, Array.setIfInBounds, hi, hj]
  rw [hSwap]
  exact Array.swap_perm hi hj

theorem shuffle_perm {i : Nat} {p : Array Nat} (h : i < p.size) (t : Twister) :
    (shuffle i p t).1.Perm p := by
  induction i generalizing p t with
  | zero => exact .refl p
  | succ i ih =>
      obtain ⟨drawn, hDrawn⟩ : ∃ drawn, drawn = below (i + 2) t := ⟨_, rfl⟩
      have hPlace : drawn.1 < i + 2 := hDrawn ▸ below_lt (by omega) t
      have hStep := exchange_perm p h (show drawn.1 < p.size by omega)
      rw [shuffle, ← hDrawn]
      exact (ih (by rw [hStep.size_eq]; omega) _).trans hStep

/-- Two numbers that are drawn together are below the bound, and they differ. -/
theorem pair_spec {n : Nat} (h : 2 ≤ n) (t : Twister) :
    (pair n t).1.1 < n ∧ (pair n t).1.2 < n ∧ (pair n t).1.1 ≠ (pair n t).1.2 := by
  obtain ⟨p, hp⟩ : ∃ p, p = (shuffle (n - 1) (Array.range n) t).1 := ⟨_, rfl⟩
  have hPerm : p.toList.Perm (List.range n) := by
    rw [hp]
    simpa using (shuffle_perm (p := Array.range n) (by simp; omega) t).toList
  have hSize : p.size = n := by simpa using hPerm.length_eq
  have hEntry (i : Nat) (hi : i < p.size) : p.getD i 0 = p.toList[i] := by
    rw [Array.getD_eq_getD_getElem?, Array.getElem?_eq_getElem hi, Option.getD_some,
      Array.getElem_toList]
  have hBelow (i : Nat) (hi : i < p.size) : p.getD i 0 < n := by
    rw [hEntry i hi]
    exact List.mem_range.mp (hPerm.subset (List.getElem_mem _))
  have hPair : (pair n t).1 = (p.getD 0 0, p.getD 1 0) := by
    rw [hp]
    rfl
  rw [hPair]
  refine ⟨hBelow 0 (by omega), hBelow 1 (by omega), fun hEq => ?_⟩
  rw [hEntry 0 (by omega), hEntry 1 (by omega)] at hEq
  have hNodup : p.toList.Nodup := hPerm.nodup_iff.mpr List.nodup_range
  exact absurd (hNodup.getElem_inj_iff.mp hEq) (by decide)

end Twister

namespace Sample

theorem bounded_twisterDraws : twisterDraws.Bounded where
  below _ t h := Twister.below_lt h t
  pair _ t h := ⟨(Twister.pair_spec h t).1, (Twister.pair_spec h t).2.1⟩
  distinct _ t h := (Twister.pair_spec h t).2.2

variable {σ : Type} {d : Draws σ}

section Symbols

theorem symbolOf_mem (hDraws : d.Bounded) {symbols : List Char} (h : symbols ≠ []) (s : σ) :
    (symbolOf d symbols s).1 ∈ symbols := by
  have hPlace := hDraws.below symbols.length s (List.length_pos_iff.mpr h)
  change symbols.getD (d.below symbols.length s).1 '.' ∈ symbols
  rw [List.getD_eq_getElem?_getD, List.getElem?_eq_getElem hPlace, Option.getD_some]
  exact List.getElem_mem hPlace

theorem length_symbolsFrom (bias : Number) (n : Nat) (s : σ) :
    (symbolsFrom d bias n s).1.length = n := by
  induction n generalizing s with
  | zero => rfl
  | succ n ih =>
      rw [symbolsFrom]
      exact congrArg Nat.succ (ih _)

theorem symbolsFrom_subset (hDraws : d.Bounded) (bias : Number) (n : Nat) (s : σ) :
    (symbolsFrom d bias n s).1 ⊆ waveSymbols := by
  induction n generalizing s with
  | zero => exact List.nil_subset _
  | succ n ih =>
      rw [symbolsFrom]
      refine List.cons_subset.mpr ⟨?_, ih _⟩
      split_ifs
      · change '.' ∈ waveSymbols
        decide
      · exact symbolOf_mem hDraws (by decide) _

/-- A text of the symbols of a sample wave, of which the first continues nothing. -/
structure Playable (cs : List Char) : Prop where
  symbols : ∀ c ∈ cs, c ∈ waveSymbols
  opening : ∀ c ∈ cs.head?, c ∈ openingSymbols

theorem length_waveFrom (cycles : Nat) (bias : Number) (s : σ) :
    (waveFrom d cycles bias s).length = cycles := by
  cases cycles with
  | zero => rfl
  | succ n =>
      rw [waveFrom]
      exact congrArg Nat.succ (length_symbolsFrom bias n _)

theorem playable_waveFrom (hDraws : d.Bounded) (cycles : Nat) (bias : Number) (s : σ) :
    Playable (waveFrom d cycles bias s) := by
  cases cycles with
  | zero => exact ⟨by simp [waveFrom], by simp [waveFrom]⟩
  | succ n =>
      have hFirst : (symbolOf d openingSymbols s).1 ∈ openingSymbols := symbolOf_mem hDraws (by decide) s
      rw [waveFrom]
      constructor
      · exact List.forall_mem_cons.mpr
          ⟨List.mem_append_left _ hFirst, fun c hc => symbolsFrom_subset hDraws bias n _ hc⟩
      · simpa using hFirst

end Symbols

end Sample
end TimingDiagram
