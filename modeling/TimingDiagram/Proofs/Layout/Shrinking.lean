import TimingDiagram.Proofs.Layout.Axis

/-! Which columns of the time axis shrink. A signal keeps the columns that its explicit symbols cover,
as far as it goes, and lets all others shrink; a column shrinks when every signal lets it. -/
namespace TimingDiagram

theorem Tag.isContinuation_iff {tag : Tag} : tag.isContinuation = true ↔ tag = .again ∨ tag = .gap := by
  cases tag <;> decide

/-- A cycle of a signal is marked where no token is left for it or the token there continues a state. -/
theorem getElem?_cycleMarks (period : Nat) (tokens : List Token) {length c : Nat} (h : c < length) :
    (cycleMarks period tokens length)[c]? = some true ↔ tokens.length * period ≤ c ∨
      ∃ t, tokens[c / period]? = some t ∧ t.tag.isContinuation = true := by
  induction tokens generalizing length c with
  | nil => simp [cycleMarks, h]
  | cons t rest ih =>
      rw [cycleMarks, List.length_cons, Nat.succ_mul]
      by_cases hOwn : c < period
      · have hFirst : c < (List.replicate (min period length) t.tag.isContinuation).length := by
          rw [List.length_replicate]
          omega
        have hLeft : ¬ rest.length * period + period ≤ c := by omega
        rw [List.getElem?_append_left hFirst, List.getElem?_replicate_of_lt (by omega),
          Nat.div_eq_of_lt hOwn]
        simp [hLeft]
      · have hPeriod : min period length = period := by omega
        rw [hPeriod, List.getElem?_append_right (by simpa using hOwn), List.length_replicate,
          ih (by omega)]
        -- Tokens that are no cycle wide end where they start, so that none is left for any cycle.
        rcases Nat.eq_zero_or_pos period with rfl | hWide
        · simp
        · have hNext : c / period = (c - period) / period + 1 :=
            Nat.div_eq_sub_div hWide (not_lt.mp hOwn)
          rw [hNext, List.getElem?_cons_succ]
          exact or_congr (by omega) Iff.rfl

theorem getElem?_zipWith_and {marks others : List Bool} {c : Nat} :
    (List.zipWith (· && ·) marks others)[c]? = some true ↔
      marks[c]? = some true ∧ others[c]? = some true := by
  rw [List.getElem?_zipWith]
  cases marks[c]? <;> cases others[c]? <;> simp

/-- Marks are the same when they are set at the same places. -/
theorem eq_of_marked_iff {marks others : List Bool} (hLength : marks.length = others.length)
    (h : ∀ c < marks.length, marks[c]? = some true ↔ others[c]? = some true) : marks = others := by
  apply List.ext_getElem hLength
  intro c hc hOther
  have hSame := h c hc
  rw [List.getElem?_eq_getElem hc, List.getElem?_eq_getElem hOther, Option.some.injEq,
    Option.some.injEq] at hSame
  exact Bool.eq_iff_iff.mpr hSame

namespace Compiled

variable {K : Type} {signals others : List (Compiled K)} {s : Compiled K} {total c : Nat}

/-- Whether a signal lets a column shrink: it has ended before it, or has no symbol for it, or the
symbol there is a repeat or a break. -/
def Spares (s : Compiled K) (c : Nat) : Prop :=
  s.length ≤ c ∨ s.tokens.length * s.signal.period ≤ c ∨
    ∃ t ∈ s.tokens, t.index = c / s.signal.period ∧ (t.tag = .again ∨ t.tag = .gap)

theorem getElem?_shrinkMarks (hTokens : Token.Numbered 0 s.tokens) (hc : c < total) :
    (s.shrinkMarks total)[c]? = some true ↔ s.Spares c := by
  rw [shrinkMarks, Spares]
  by_cases hInside : c < s.length
  · have hOwn : c < (cycleMarks s.signal.period s.tokens s.length).length := by
      rwa [length_cycleMarks]
    rw [List.getElem?_append_left hOwn, getElem?_cycleMarks _ _ hInside,
      or_iff_right (not_le.mpr hInside)]
    simp only [hTokens.getElem?_eq_some_iff, Tag.isContinuation_iff, and_assoc]
  · have hPast : (cycleMarks s.signal.period s.tokens s.length).length ≤ c := by
      rw [length_cycleMarks]
      omega
    rw [List.getElem?_append_right hPast, length_cycleMarks,
      List.getElem?_replicate_of_lt (by omega)]
    exact iff_of_true rfl (.inl (not_lt.mp hInside))

/-- Every signal takes marks away and none sets one. -/
theorem getElem?_foldl_shrinkMarks (signals : List (Compiled K)) (marks : List Bool) :
    (signals.foldl (fun marks s => List.zipWith (· && ·) marks (s.shrinkMarks total)) marks)[c]? =
        some true ↔
      marks[c]? = some true ∧ ∀ s ∈ signals, (s.shrinkMarks total)[c]? = some true := by
  induction signals generalizing marks with
  | nil => simp
  | cons s rest ih =>
      rw [List.foldl_cons, ih, getElem?_zipWith_and, List.forall_mem_cons, and_assoc]

theorem getElem?_shrinkable (hc : c < total) : (shrinkable signals total)[c]? = some true ↔
    ∀ s ∈ signals, (s.shrinkMarks total)[c]? = some true := by
  rw [shrinkable, getElem?_foldl_shrinkMarks, List.getElem?_replicate_of_lt hc, and_iff_right rfl]

theorem longest_congr_mem (h : ∀ s, s ∈ others ↔ s ∈ signals) : longest others = longest signals :=
  le_antisymm (longest_le_iff.mpr fun s hs => length_le_longest ((h s).mp hs))
    (longest_le_iff.mpr fun s hs => length_le_longest ((h s).mpr hs))

/-- It matters which signals there are, and not in which order. -/
theorem shrinkable_congr_mem (h : ∀ s, s ∈ others ↔ s ∈ signals)
    (hFits : ∀ s ∈ signals, s.length ≤ total) :
    shrinkable others total = shrinkable signals total := by
  have hOthers : ∀ s ∈ others, s.length ≤ total := fun s hs => hFits s ((h s).mp hs)
  apply eq_of_marked_iff
  · rw [length_shrinkable hOthers, length_shrinkable hFits]
  · intro c hc
    rw [length_shrinkable hOthers] at hc
    rw [getElem?_shrinkable hc, getElem?_shrinkable hc]
    exact forall_congr' fun s => imp_congr_left (h s)

/-- Signals in two groups let shrink what both groups do. -/
theorem shrinkable_append (hFits : ∀ s ∈ signals ++ others, s.length ≤ total) :
    shrinkable (signals ++ others) total =
      List.zipWith (· && ·) (shrinkable signals total) (shrinkable others total) := by
  obtain ⟨hSignals, hOthers⟩ := List.forall_mem_append.mp hFits
  apply eq_of_marked_iff
  · rw [List.length_zipWith, length_shrinkable hFits, length_shrinkable hSignals,
      length_shrinkable hOthers, Nat.min_self]
  · intro c hc
    rw [length_shrinkable hFits] at hc
    rw [getElem?_zipWith_and, getElem?_shrinkable hc, getElem?_shrinkable hc, getElem?_shrinkable hc,
      List.forall_mem_append]

/-- On the axis of some compiled signals a column shrinks exactly where all of them let it: where each
has ended, has no symbol left, or has a repeat or a break. So neither the order of the signals matters,
nor how often one is there, nor into which groups they are divided. -/
theorem shrinkable_iff_spares (h : ∀ s ∈ signals, s.signal.compile.outcome = .ok s) :
    (shrinkable signals (longest signals)).length = longest signals ∧
      (∀ c < longest signals, (shrinkable signals (longest signals))[c]? = some true ↔
        ∀ s ∈ signals, s.Spares c) ∧
      (∀ others, (∀ s, s ∈ others ↔ s ∈ signals) →
        shrinkable others (longest others) = shrinkable signals (longest signals)) ∧
      ∀ first second, signals = first ++ second →
        shrinkable signals (longest signals) = List.zipWith (· && ·)
          (shrinkable first (longest signals)) (shrinkable second (longest signals)) := by
  have hFits : ∀ s ∈ signals, s.length ≤ longest signals := fun _ hs => length_le_longest hs
  refine ⟨length_shrinkable hFits, fun c hc => ?_, fun others hSame => ?_, ?_⟩
  · rw [getElem?_shrinkable hc]
    apply forall₂_congr
    intro s hs
    obtain ⟨_, hTokens, _⟩ := Signal.of_compile (h s hs)
    exact getElem?_shrinkMarks (lex_numbered hTokens) hc
  · rw [longest_congr_mem hSame]
    exact shrinkable_congr_mem hSame hFits
  · rintro first second rfl
    exact shrinkable_append hFits

set_option maxRecDepth 10000 in
/-- The second cycle of a break shrinks, beside a signal that has no symbol left for it. -/
theorem shrinkable_iff_spares_break :
    let a : Signal Int := { name := "a", wave := "0|1", period := 2, phase := 0 }
    let b : Signal Int := { name := "b", wave := "1..", phase := 0, cycles := some 5 }
    ∃ s t, a.compile.outcome = .ok s ∧ b.compile.outcome = .ok t ∧ longest [s, t] = 6 ∧
      (shrinkable [s, t] 6)[3]? = some true ∧
      shrinkable [t, s] (longest [t, s]) = shrinkable [s, t] 6 := by
  intro a b
  let bar : Token := ⟨1, '|', .gap, .low, some .low, 0, none, none⟩
  have hFirst : lex a.wave a.node a.name none = .ok
      [⟨0, '0', .low, .low, none, 0, none, none⟩, bar,
        ⟨2, '1', .high, .high, some .low, 0, none, none⟩] := by cbv
  have hSecond : lex b.wave b.node b.name none = .ok
      [⟨0, '1', .high, .high, none, 0, none, none⟩,
        ⟨1, '.', .again, .high, some .high, 0, none, none⟩,
        ⟨2, '.', .again, .high, some .high, 0, none, none⟩] := by cbv
  obtain ⟨s, hs⟩ : ∃ s, a.compile.outcome = .ok s := by
    rw [Signal.outcome_compile, hFirst]
    exact ⟨_, rfl⟩
  obtain ⟨t, ht⟩ : ∃ t, b.compile.outcome = .ok t := by
    rw [Signal.outcome_compile, hSecond]
    exact ⟨_, rfl⟩
  obtain ⟨hOwn, hTokens, _, hSix⟩ := Signal.of_compile hs
  obtain ⟨hOther, hMore, _, hFive⟩ := Signal.of_compile ht
  have hBars := Except.ok.inj (hTokens.symm.trans hFirst)
  have hPoints := Except.ok.inj (hMore.symm.trans hSecond)
  have hLongest : longest [s, t] = 6 := by
    rw [longest, List.map_cons, List.map_cons, hSix, hFive, hBars]
    rfl
  have hCompiled : ∀ u ∈ [s, t], u.signal.compile.outcome = .ok u := by
    simpa [hOwn, hOther] using ⟨hs, ht⟩
  obtain ⟨_, hMarks, hOrder, _⟩ := shrinkable_iff_spares hCompiled
  rw [hLongest] at hMarks hOrder
  have hBreak : s.Spares 3 := by
    refine .inr (.inr ⟨bar, ?_, ?_, .inr rfl⟩)
    · rw [hBars]
      simp
    · rw [hOwn]
      decide
  have hPast : t.Spares 3 := by
    refine .inr (.inl ?_)
    rw [hPoints, hOther]
    decide
  refine ⟨s, t, hs, ht, hLongest, (hMarks 3 (by decide)).mpr ?_, hOrder _ fun u => ?_⟩
  · exact List.forall_mem_cons.mpr ⟨hBreak, List.forall_mem_singleton.mpr hPast⟩
  · simp [or_comm]

end Compiled
end TimingDiagram
