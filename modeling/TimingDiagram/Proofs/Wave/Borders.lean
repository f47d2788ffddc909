import TimingDiagram.Proofs.Wave.LookBack
import TimingDiagram.Proofs.Wave.Meaning

/-! The borders between segments and the tokens there. A segment that starts with a token is drawn as
that token, the one before it looks like the token before, and a level that opens no segment is the one
that the line before holds already. -/
namespace TimingDiagram

/-- A token keeps what the token before it stood for. -/
theorem lex_previous {wave signal : String} {node : NodeSpec} {initial : Option Token}
    {tokens : List Token} (h : lex wave node signal initial = .ok tokens) {i : Nat} {t : Token}
    (ht : tokens[i]? = some t) :
    t.previous = (Token.tokenBefore initial tokens i).map Token.resolved := by
  obtain ⟨gs, _, _, _, hTokens⟩ := lex_eq_ok h
  obtain ⟨_, _, hRead⟩ := Token.exists_ofGlyph?_of_sequence hTokens ht
  exact Token.previous_of_ofGlyph? hRead

namespace Tag

/-- A level tag holds its level from one end to the other. -/
theorem ends_of_level {tag : Tag} (h : SegmentKind.ofTag tag = .level) :
    tag.entry? = tag.level? ∧ tag.exit? = tag.level? := by
  cases tag <;> simp_all [SegmentKind.ofTag, isClock, entry?, exit?]

theorem kind_of_level? {tag : Tag} (h : tag.level? ≠ none) : SegmentKind.ofTag tag = .level := by
  cases tag <;> simp_all [level?, SegmentKind.ofTag, isClock]

theorem isContinuation_of_level? {tag : Tag} (h : tag.level? ≠ none) : tag.isContinuation = false := by
  cases tag <;> simp_all [level?, isContinuation]

end Tag

/-- The edge of an explicit token leads from the level before it to its own. -/
theorem Token.edge_eq {t : Token} {u v : Level} (hOwn : t.tag.isContinuation = false)
    (hBefore : t.previous.bind Tag.exit? = some u) (hAfter : t.resolved.entry? = some v) :
    t.edge = if u = v then .steady else if u.rank < v.rank then .rising else .falling := by
  rw [edge, hOwn, hBefore, hAfter]
  rfl

variable {K : Type} {s : Signal K} {c : Compiled K} {seg : Segment} {t : Token}

/-- A segment that starts with a token is drawn as the token says. -/
theorem opening_of_compile (hPeriod : 1 ≤ s.period) (h : s.compile.outcome = .ok c)
    (hSeg : seg ∈ c.segments) (ht : t ∈ c.tokens) (hStart : seg.start = t.index * s.period) :
    seg.tag = some t.resolved ∧ seg.kind = .ofTag t.resolved ∧ seg.level = t.resolved.level? := by
  obtain ⟨_, hTokens, hSegments, _⟩ := Signal.of_compile h
  have hNumbered := lex_numbered hTokens
  have hPositive : (1 : Int) ≤ s.period := by exact_mod_cast hPeriod
  rcases Segment.mem_resolve_cases hNumbered hPositive hSegments hSeg with
    ⟨own, hOwn, hOpening⟩ | ⟨hNone, _⟩
  · have hPlace : seg.start = own.index * s.period := congrArg Segment.start hOpening
    have hIndex : own.index = t.index := by
      exact_mod_cast mul_right_cancel₀ (by omega : (s.period : Int) ≠ 0) (hPlace.symm.trans hStart)
    obtain rfl : own = t := by
      have hFirst := hNumbered.getElem?_eq_some_iff.mpr ⟨hOwn, rfl⟩
      have hSecond := hNumbered.getElem?_eq_some_iff.mpr ⟨ht, hIndex.symm⟩
      exact Option.some.inj (hFirst.symm.trans hSecond)
    exact ⟨congrArg Segment.tag hOpening, congrArg Segment.kind hOpening,
      congrArg Segment.level hOpening⟩
  · rw [hNone] at ht
    cases ht

/-- A segment that ends at the border of a symbol takes whole symbols. -/
theorem cycles_of_compile (hPeriod : 1 ≤ s.period) (h : s.compile.outcome = .ok c)
    (hSeg : seg ∈ c.segments) {i : Nat} (hStop : seg.stop = i * s.period) :
    ∃ count : Nat, 1 ≤ count ∧ seg.cycles = count * s.period := by
  obtain ⟨_, hTokens, hSegments, _⟩ := Signal.of_compile h
  have hPositive : (1 : Int) ≤ s.period := by exact_mod_cast hPeriod
  obtain ⟨_, hCycles, _⟩ := (tiles_of_compile hPeriod h).bounds seg hSeg
  have hStart := Segment.dvd_start_resolve (lex_numbered hTokens) hPositive hSegments hSeg
  have hWhole : seg.start + seg.cycles = i * s.period := hStop
  obtain ⟨count, hCount⟩ : (s.period : Int) ∣ seg.cycles :=
    (Int.dvd_add_right hStart).mp (hWhole ▸ Dvd.intro_left _ rfl)
  have hTotal : 0 < (s.period : Int) * count := by omega
  have hSome : 0 < count := (mul_pos_iff_of_pos_left (by omega)).mp hTotal
  refine ⟨count.toNat, by omega, ?_⟩
  rw [Int.toNat_of_nonneg hSome.le, hCount, mul_comm]

/-- A segment that ends where a token starts looks like the token before it. -/
theorem closing_of_compile (hPeriod : 1 ≤ s.period) (h : s.compile.outcome = .ok c)
    (hSeg : seg ∈ c.segments) (ht : t ∈ c.tokens) (hStop : seg.stop = t.index * s.period) :
    ∃ before : Token, t.previous = some before.resolved ∧ seg.look = before.look := by
  obtain ⟨_, hTokens, hSegments, _⟩ := Signal.of_compile h
  have hNumbered := lex_numbered hTokens
  have hPositive : (1 : Int) ≤ s.period := by exact_mod_cast hPeriod
  obtain ⟨hFrom, hCycles, _⟩ := (tiles_of_compile hPeriod h).bounds seg hSeg
  have hWhole : seg.start + seg.cycles = seg.stop := rfl
  -- The segment has a cycle, so that the token is not the first one.
  obtain ⟨i, hi⟩ : ∃ i, t.index = i + 1 := by
    refine Nat.exists_eq_succ_of_ne_zero fun hFirst => ?_
    rw [hFirst] at hStop
    omega
  have hHere : c.tokens[i + 1]? = some t := hNumbered.getElem?_eq_some_iff.mpr ⟨ht, hi⟩
  obtain ⟨hRoom, _⟩ := List.getElem?_eq_some_iff.mp hHere
  obtain ⟨before, hBefore⟩ : ∃ before, c.tokens[i]? = some before :=
    ⟨_, List.getElem?_eq_getElem (by omega)⟩
  refine ⟨before, ?_, ?_⟩
  · rw [lex_previous hTokens hHere]
    exact congrArg (Option.map Token.resolved) hBefore
  · -- Its last cycle is one of the token before.
    have hPlace : (seg.stop - 1) / s.period = i := by
      rw [hStop, hi, Int.ediv_eq_iff_of_pos (by omega)]
      push_cast
      constructor <;> linarith
    have hShown := Segment.shows_resolve (List.ne_nil_of_mem ht) hNumbered hPositive
      (Int.natCast_nonneg _) hSegments seg hSeg (seg.stop - 1) (by omega) (by omega)
    rw [Token.lookAt, hPlace, Int.toNat_natCast, Nat.min_eq_left (by omega), hBefore] at hShown
    exact (Option.some.inj hShown).symm

/-- A level after a line that opens no segment within the signal has no edge: the line before holds the
same level. -/
theorem steady_of_silent (hPeriod : 1 ≤ s.period) (h : s.compile.outcome = .ok c) {i : Nat}
    {before : Token} (hBefore : c.tokens[i]? = some before) (ht : c.tokens[i + 1]? = some t)
    (hLevel : t.tag.level? ≠ none) (hInside : (i + 1) * s.period < c.length)
    (hSilent : ∀ seg ∈ c.segments, seg.start ≠ (i + 1 : Nat) * s.period) : t.edge = .steady := by
  obtain ⟨_, hTokens, hSegments, _⟩ := Signal.of_compile h
  have hNumbered := lex_numbered hTokens
  have hPositive : (1 : Int) ≤ s.period := by exact_mod_cast hPeriod
  have hMem := List.mem_of_getElem? ht
  have hOwn := Tag.isContinuation_of_level? hLevel
  have hResolved := lex_resolved hTokens t hMem hOwn
  have hJoined : ¬ t.OpensAfter before := fun hOpens => by
    have hPlace : ((i + 1 : Nat) * s.period : Int) < c.length := by exact_mod_cast hInside
    obtain ⟨seg, hSeg, hStart⟩ := (Segment.start_resolve_iff (List.ne_nil_of_mem hMem) hNumbered
      (lex_resolved hTokens) hPositive hSegments).mpr
        ⟨hPlace, .inr ⟨i, before, t, hBefore, ht, rfl, hOpens⟩⟩
    exact hSilent seg hSeg hStart
  rw [Token.OpensAfter] at hJoined
  push Not at hJoined
  obtain ⟨_, _, hKind, hSame, _⟩ := hJoined
  rw [← hResolved] at hLevel
  obtain ⟨v, hv⟩ := Option.ne_none_iff_exists'.mp hLevel
  have hAfter := Tag.kind_of_level? hLevel
  have hPrevious : t.previous = some before.resolved := by
    rw [lex_previous hTokens ht]
    exact congrArg (Option.map Token.resolved) hBefore
  have hExit : t.previous.bind Tag.exit? = some v := by
    rw [hPrevious, Option.bind_some, (Tag.ends_of_level (hKind.trans hAfter)).2, hSame, hv]
  rw [Token.edge_eq hOwn hExit ((Tag.ends_of_level hAfter).1.trans hv), if_pos rfl]

end TimingDiagram
