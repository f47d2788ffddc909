import TimingDiagram.Proofs.Wave.Attachments

/-! The meaning of a wave cycle by cycle. Each cycle of a signal looks like its token, the last
token standing for all cycles past it, and a segment starts exactly where a token is seen to
differ from the one before it. -/
namespace TimingDiagram

theorem SegmentKind.ofTag_eq_clock_iff (tag : Tag) : ofTag tag = .clock ↔ tag.isClock := by
  cases tag <;> decide

theorem SegmentKind.level?_ne_none {tag : Tag} (hState : tag.isContinuation = false)
    (hKind : ofTag tag = .level) : tag.level? ≠ none := by
  cases tag <;> simp_all [ofTag, Tag.isClock, Tag.isContinuation, Tag.level?]

namespace Token

/-- What is seen of the cycles of a token. -/
def look (t : Token) : Look :=
  ⟨.ofTag t.resolved, t.resolved.level?, t.color,
    if SegmentKind.ofTag t.resolved = .clock then some t.resolved else none⟩

/-- The look of a cycle of a wave. -/
def lookAt (tokens : List Token) (period x : Int) : Option Look :=
  (tokens[min (x / period).toNat (tokens.length - 1)]?).map look

/-- Whether a boundary is drawn between a token and the one before it: the token carries an
anchor, is a data symbol, or looks different. -/
def OpensAfter (t before : Token) : Prop :=
  t.anchor ≠ none ∨ t.tag = .data ∨
    SegmentKind.ofTag before.resolved ≠ SegmentKind.ofTag t.resolved ∨
    before.resolved.level? ≠ t.resolved.level? ∨ before.color ≠ t.color ∨
    (before.resolved.isClock ∧ t.resolved.isClock ∧ before.resolved ≠ t.resolved)

end Token

namespace Segment

/-- Every cycle of some segments looks as it should. -/
def Shows (lookAt : Int → Option Look) (segments : List Segment) : Prop :=
  ∀ s ∈ segments, ∀ x, s.start ≤ x → x < s.stop → lookAt x = some s.look

variable {lookAt : Int → Option Look} {start stop length : Int} {current : Segment}
  {segments rest : List Segment}

/-- A run looks in each of its cycles as the piece it opens with. -/
theorem shows_coalesceFrom (hTiles : Tiles start stop (current :: rest))
    (h : Shows lookAt (current :: rest)) : Shows lookAt (coalesceFrom current rest) := by
  induction rest generalizing current start with
  | nil => exact h
  | cons s rest ih =>
      have hNext : current.stop = s.start := hTiles.2.2.1.symm
      obtain ⟨hCurrent, hs, hOthers⟩ :
          (∀ x, current.start ≤ x → x < current.stop → lookAt x = some current.look) ∧
            (∀ x, s.start ≤ x → x < s.stop → lookAt x = some s.look) ∧ Shows lookAt rest :=
        ⟨h current (by simp), h s (by simp), fun t ht => h t (by simp [ht])⟩
      rw [coalesceFrom]
      split_ifs with hAbsorbs
      · have hLook : current.look = s.look := (absorbs_iff.mp hAbsorbs).2.2.1
        apply ih hTiles.merge
        refine List.forall_mem_cons.mpr ⟨fun x hFrom hTo => ?_, hOthers⟩
        rw [stop_merge hNext] at hTo
        rw [look_merge]
        rcases lt_or_ge x current.stop with hx | hx
        · exact hCurrent x hFrom hx
        · exact hLook ▸ hs x (by omega) hTo
      · have hTail := ih hTiles.2.2 (List.forall_mem_cons.mpr ⟨hs, hOthers⟩)
        exact List.forall_mem_cons.mpr ⟨hCurrent, hTail⟩

theorem Shows.coalesce (hTiles : Tiles start stop segments) (h : Shows lookAt segments) :
    Shows lookAt (coalesce segments) := by
  cases segments with
  | nil => exact h
  | cons s rest => exact shows_coalesceFrom hTiles h

theorem Shows.clip (h : Shows lookAt segments) : Shows lookAt (clip length segments) := by
  intro s hs x hFrom hTo
  obtain ⟨whole, hMem, hOpening, hStop, _⟩ := mem_clip hs
  have hStart : s.start = whole.start := by rw [← start_opening, hOpening, start_opening]
  have hLook : s.look = whole.look := by rw [← look_opening, hOpening, look_opening]
  exact hLook ▸ h whole hMem x (hStart ▸ hFrom) (hTo.trans_le hStop)

variable {period : Int} {data : List String} {signal : String} {tokens : List Token}
  {declared : Option Int}

@[simp] theorem look_pieceOf (t : Token) : (pieceOf period tokens data t).look = t.look := rfl

theorem shows_pieces (hTokens : Token.Numbered 0 tokens) (hPeriod : 1 ≤ period)
    (data : List String) :
    Shows (Token.lookAt tokens period) (pieces period tokens data) := by
  rw [pieces_eq_map hTokens]
  intro s hs x hFrom hTo
  obtain ⟨t, ht, rfl⟩ := List.mem_map.mp hs
  obtain ⟨i, hi⟩ := List.mem_iff_getElem?.mp ht
  obtain ⟨hLt, _⟩ := List.getElem?_eq_some_iff.mp hi
  have hIndex : t.index = i := by simpa using hTokens.index_getElem? hi
  have hDiv : x / period = i := by
    have hStart : (pieceOf period tokens data t).start = t.index * period := rfl
    have hStop : (pieceOf period tokens data t).stop = t.index * period + period := rfl
    rw [hStart, hIndex] at hFrom
    rw [hStop, hIndex] at hTo
    exact (Int.ediv_eq_iff_of_pos (by omega)).mpr ⟨hFrom, hTo⟩
  have hPlace : min (x / period).toNat (tokens.length - 1) = i := by
    rw [hDiv, Int.toNat_natCast]
    omega
  rw [Token.lookAt, hPlace, hi, Option.map_some, look_pieceOf]

theorem shows_padding (hNil : tokens ≠ []) (hTokens : Token.Numbered 0 tokens)
    (hPeriod : 1 ≤ period) (data : List String) (length : Int) :
    Shows (Token.lookAt tokens period)
      [padding (tokens.length * period) length (pieces period tokens data).getLast?] := by
  obtain ⟨last, hLast⟩ : ∃ last, tokens.getLast? = some last :=
    Option.ne_none_iff_exists'.mp fun h => hNil (List.getLast?_eq_none_iff.mp h)
  rw [pieces_eq_map hTokens, List.getLast?_map, hLast, Option.map_some]
  intro s hs x hFrom _
  rw [List.mem_singleton.mp hs] at hFrom ⊢
  have hPast : (tokens.length : Int) ≤ x / period := Int.le_ediv_of_mul_le (by omega) hFrom
  have hPlace : min (x / period).toNat (tokens.length - 1) = tokens.length - 1 := by omega
  rw [Token.lookAt, hPlace, ← List.getLast?_eq_getElem?, hLast, Option.map_some]
  rfl

/-- The segments of a signal look in each cycle as the token there. -/
theorem shows_resolve (hNil : tokens ≠ []) (hTokens : Token.Numbered 0 tokens)
    (hPeriod : 1 ≤ period) (hLength : 0 ≤ declared.getD (tokens.length * period))
    (h : resolve tokens period data declared signal = .ok segments) :
    Shows (Token.lookAt tokens period) segments := by
  obtain ⟨ps, hFitted, rfl⟩ := resolve_eq_ok_iff.mp h
  have hPieces := shows_pieces hTokens hPeriod data
  apply Shows.coalesce (tiles_fitted hTokens hPeriod hLength hFitted)
  rcases fitted_cases hFitted with ⟨_, rfl⟩ | ⟨_, rfl⟩ | ⟨_, _, rfl⟩
  · exact hPieces
  · exact List.forall_mem_append.mpr ⟨hPieces, shows_padding hNil hTokens hPeriod data _⟩
  · exact hPieces.clip

theorem look_ne_iff {before t : Token} :
    before.look ≠ t.look ↔
      SegmentKind.ofTag before.resolved ≠ SegmentKind.ofTag t.resolved ∨
        before.resolved.level? ≠ t.resolved.level? ∨ before.color ≠ t.color ∨
        (before.resolved.isClock ∧ t.resolved.isClock ∧ before.resolved ≠ t.resolved) := by
  simp only [Token.look, ne_eq, Look.mk.injEq, ← SegmentKind.ofTag_eq_clock_iff]
  by_cases hKind : SegmentKind.ofTag before.resolved = SegmentKind.ofTag t.resolved
  · rw [hKind]
    by_cases hIs : SegmentKind.ofTag t.resolved = .clock <;> simp [hIs] <;> tauto
  · simp [hKind]

theorem joins_pieceOf_eq_false_iff {before t : Token}
    (h : t.tag.isContinuation = false → t.resolved = t.tag) :
    (pieceOf period tokens data before).joins (pieceOf period tokens data t) = false ↔
      t.OpensAfter before := by
  have hAnchor : (pieceOf period tokens data t).anchor = t.anchor := rfl
  rw [joins_eq_false_iff, isFreshBox_pieceOf h, look_pieceOf, look_pieceOf, look_ne_iff, hAnchor,
    decide_eq_true_eq, Token.OpensAfter]

/-- The segments of a signal start at its start and where a boundary is drawn. -/
theorem start_resolve_iff (hNil : tokens ≠ []) (hTokens : Token.Numbered 0 tokens)
    (hResolved : ∀ t ∈ tokens, t.tag.isContinuation = false → t.resolved = t.tag)
    (hPeriod : 1 ≤ period) (h : resolve tokens period data declared signal = .ok segments)
    {x : Int} :
    (∃ s ∈ segments, s.start = x) ↔ x < declared.getD (tokens.length * period) ∧
      (x = 0 ∨ ∃ (i : Nat) (before t : Token), tokens[i]? = some before ∧
        tokens[i + 1]? = some t ∧ x = (i + 1 : Nat) * period ∧ t.OpensAfter before) := by
  have hPiece (i : Nat) : (pieces period tokens data)[i]? =
      tokens[i]?.map (pieceOf period tokens data) := by
    rw [pieces_eq_map hTokens, List.getElem?_map]
  have hFirsts : (∃ s ∈ segments, s.start = x) ↔ ∃ s ∈ firsts (pieces period tokens data),
      s.start < declared.getD (tokens.length * period) ∧ s.start = x := by
    have hStarts := congrArg (List.map start) (map_opening_resolve hTokens hNil hPeriod h)
    simp only [List.map_map] at hStarts
    change segments.map start = (List.filter _ _).map start at hStarts
    rw [← List.mem_map, hStarts, List.mem_map]
    simp only [List.mem_filter, decide_eq_true_eq, and_assoc]
  have hStart {i : Nat} {t : Token} (ht : tokens[i]? = some t) :
      (pieceOf period tokens data t).start = i * period := by
    have : t.index = i := by simpa using hTokens.index_getElem? ht
    simp [pieceOf, ofToken, this]
  rw [hFirsts]
  constructor
  · rintro ⟨s, hs, hBefore, rfl⟩
    refine ⟨hBefore, ?_⟩
    rcases mem_firsts_iff.mp hs with hFirst | ⟨i, left, hLeft, hs, hBreak⟩
    · rw [hPiece] at hFirst
      obtain ⟨t, ht, rfl⟩ := Option.map_eq_some_iff.mp hFirst
      exact .inl (by simpa using hStart ht)
    · rw [hPiece] at hLeft hs
      obtain ⟨before, hEarlier, rfl⟩ := Option.map_eq_some_iff.mp hLeft
      obtain ⟨t, ht, rfl⟩ := Option.map_eq_some_iff.mp hs
      have hExplicit := hResolved t (List.mem_of_getElem? ht)
      exact .inr ⟨i, before, t, hEarlier, ht, hStart ht,
        (joins_pieceOf_eq_false_iff hExplicit).mp hBreak⟩
  · rintro ⟨hBefore, rfl | ⟨i, before, t, hLeft, ht, rfl, hBreak⟩⟩
    · obtain ⟨t, ht⟩ : ∃ t, tokens[0]? = some t :=
        ⟨_, List.getElem?_eq_getElem (List.length_pos_iff.mpr hNil)⟩
      have hZero : (pieceOf period tokens data t).start = 0 := by simpa using hStart ht
      refine ⟨_, mem_firsts_iff.mpr (.inl ?_), hZero ▸ hBefore, hZero⟩
      rw [hPiece, ht, Option.map_some]
    · refine ⟨_, mem_firsts_iff.mpr (.inr ⟨i, pieceOf period tokens data before, ?_, ?_, ?_⟩),
        (hStart ht) ▸ hBefore, hStart ht⟩
      · rw [hPiece, hLeft, Option.map_some]
      · rw [hPiece, ht, Option.map_some]
      · exact (joins_pieceOf_eq_false_iff (hResolved t (List.mem_of_getElem? ht))).mpr hBreak

end Segment

variable {K : Type} {s : Signal K} {c : Compiled K}

/-- Every segment of a compiled signal can be drawn: a line has its level, and a box with a label
one of the eight colours. -/
theorem drawable_of_compile (hPeriod : 1 ≤ s.period) (h : s.compile.outcome = .ok c) :
    ∀ segment ∈ c.segments, (segment.kind = .level → segment.level ≠ none) ∧
      (segment.kind = .data → 2 ≤ segment.color ∧ segment.color ≤ 9) := by
  obtain ⟨_, hTokens, hSegments, _⟩ := Signal.of_compile h
  intro segment hMem
  rcases Segment.mem_resolve_cases (lex_numbered hTokens) (by exact_mod_cast hPeriod) hSegments
    hMem with ⟨t, ht, hOpening⟩ | ⟨_, rfl⟩
  · obtain ⟨hState, hColor⟩ := lex_settled hTokens t ht
    rw [← Segment.kind_opening, ← Segment.level_opening, ← Segment.color_opening, hOpening]
    exact ⟨SegmentKind.level?_ne_none hState,
      fun hKind => hColor ((Segment.kind_eq_data_iff _).mp hKind)⟩
  · exact ⟨fun hKind => (by cases hKind), fun hKind => (by cases hKind)⟩

/-- A segment of a compiled signal is drawn as its symbol says. -/
theorem tag_of_compile (hPeriod : 1 ≤ s.period) (h : s.compile.outcome = .ok c) :
    ∀ segment ∈ c.segments, ∃ tag, segment.tag = some tag ∧ segment.kind = .ofTag tag := by
  obtain ⟨_, hTokens, hSegments, _⟩ := Signal.of_compile h
  intro segment hMem
  rcases Segment.mem_resolve_cases (lex_numbered hTokens) (by exact_mod_cast hPeriod) hSegments
    hMem with ⟨t, _, hOpening⟩ | ⟨_, rfl⟩
  · have hTag := congrArg Segment.tag hOpening
    have hKind := congrArg Segment.kind hOpening
    exact ⟨t.resolved, hTag, hKind⟩
  · exact ⟨.dontCare, rfl, rfl⟩

/-- The segments of a signal with symbols refine the meaning of its wave. A cycle lies in one
segment only, which is drawn as the token of the cycle, with its level and colour and, for a
clock, its symbol; past the tokens the last one goes on. The segments start at the start of a
signal that has cycles and at the tokens within its length that open a boundary. -/
theorem compile_refines_wave (hPeriod : 1 ≤ s.period) (h : s.compile.outcome = .ok c)
    (hNil : c.tokens ≠ []) :
    (∀ x : Nat, x < c.length → ∃ t segment,
      c.tokens[min (x / s.period) (c.tokens.length - 1)]? = some t ∧
        segment ∈ c.segments ∧ segment.start ≤ x ∧ x < segment.stop ∧
        (∀ other ∈ c.segments, other.start ≤ x → x < other.stop → other = segment) ∧
        segment.kind = .ofTag t.resolved ∧ segment.level = t.resolved.level? ∧
        segment.color = t.color ∧
        (t.resolved.isClock → segment.tag = some t.resolved)) ∧
      ∀ x : Int, (∃ segment ∈ c.segments, segment.start = x) ↔
        (x = 0 ∧ 0 < c.length) ∨ ∃ (i : Nat) (before t : Token), c.tokens[i]? = some before ∧
          c.tokens[i + 1]? = some t ∧ x = (i + 1 : Nat) * s.period ∧ x < c.length ∧
          t.OpensAfter before := by
  obtain ⟨_, hTokens, hSegments, _⟩ := Signal.of_compile h
  have hNumbered := lex_numbered hTokens
  have hPositive : (1 : Int) ≤ s.period := by exact_mod_cast hPeriod
  have hLength : 0 ≤ (some (c.length : Int)).getD (c.tokens.length * s.period) :=
    Int.natCast_nonneg _
  refine ⟨fun x hx => ?_, fun x => ?_⟩
  · have hTiles : Segment.Tiles 0 c.length c.segments :=
      Segment.tiles_resolve hNumbered hPositive hLength hSegments
    obtain ⟨segment, ⟨hMem, hFrom, hTo⟩, hUnique⟩ :=
      hTiles.existsUnique (Int.natCast_nonneg x) (by exact_mod_cast hx)
    have hShown := Segment.shows_resolve hNil hNumbered hPositive hLength hSegments segment hMem x
      hFrom hTo
    rw [Token.lookAt, ← Int.natCast_ediv, Int.toNat_natCast] at hShown
    obtain ⟨t, ht, hLook⟩ := Option.map_eq_some_iff.mp hShown
    refine ⟨t, segment, ht, hMem, hFrom, hTo,
      fun other hOther hStart hStop => hUnique other ⟨hOther, hStart, hStop⟩, ?_⟩
    simp only [Token.look, Segment.look, Look.mk.injEq] at hLook
    obtain ⟨hKind, hLevel, hColor, hPulses⟩ := hLook
    refine ⟨hKind.symm, hLevel.symm, hColor.symm, fun hClock => ?_⟩
    have hPulse := (SegmentKind.ofTag_eq_clock_iff t.resolved).mpr hClock
    rw [if_pos hPulse, if_pos (hKind ▸ hPulse)] at hPulses
    exact hPulses.symm
  · rw [Segment.start_resolve_iff hNil hNumbered (lex_resolved hTokens) hPositive hSegments,
      Option.getD_some]
    constructor
    · rintro ⟨hBefore, rfl | ⟨i, before, t, hEarlier, ht, rfl, hOpens⟩⟩
      · exact .inl ⟨rfl, by exact_mod_cast hBefore⟩
      · exact .inr ⟨i, before, t, hEarlier, ht, rfl, hBefore, hOpens⟩
    · rintro (⟨rfl, hBefore⟩ | ⟨i, before, t, hEarlier, ht, rfl, hBefore, hOpens⟩)
      · exact ⟨by exact_mod_cast hBefore, .inl rfl⟩
      · exact ⟨hBefore, .inr ⟨i, before, t, hEarlier, ht, rfl, hOpens⟩⟩

set_option maxRecDepth 10000 in
/-- Without cycles a signal has no segment, not even one that starts at its start. -/
theorem not_start_of_no_cycles :
    ¬ ∀ (s : Signal Int) (c : Compiled Int), 1 ≤ s.period → s.compile.outcome = .ok c →
      c.tokens ≠ [] → ∀ x : Int, (∃ segment ∈ c.segments, segment.start = x) ↔
        x = 0 ∨ ∃ (i : Nat) (before t : Token), c.tokens[i]? = some before ∧
          c.tokens[i + 1]? = some t ∧ x = (i + 1 : Nat) * s.period ∧ x < c.length ∧
          t.OpensAfter before := by
  intro h
  let s : Signal Int := { name := "a", wave := "1", phase := 0, cycles := some 0 }
  have hTokens : lex s.wave s.node s.name none = .ok
      [⟨0, '1', .high, .high, none, 0, none, none⟩] := by cbv
  have hCompile : s.compile.outcome = .ok
      ⟨s, [⟨0, '1', .high, .high, none, 0, none, none⟩], [], 0⟩ := by
    rw [Signal.outcome_compile, hTokens]
    rfl
  obtain ⟨segment, hMem, _⟩ := (h s _ (by decide) hCompile (by simp) 0).mpr (.inl rfl)
  cases hMem

set_option maxRecDepth 10000 in
/-- A clock that changes its symbol opens a segment of its own. -/
theorem compile_refines_wave_clock :
    let s : Signal Int := { name := "a", wave := "pn", period := 2, phase := 0, cycles := some 5 }
    1 ≤ s.period ∧ ∃ c, s.compile.outcome = .ok c ∧ c.tokens ≠ [] ∧
      ∃ segment ∈ c.segments, segment.start = 2 := by
  intro s
  let first : Token := ⟨0, 'p', .clockPos, .clockPos, none, 0, none, none⟩
  let second : Token := ⟨1, 'n', .clockNeg, .clockNeg, some .clockPos, 0, none, none⟩
  have hPeriod : 1 ≤ s.period := by decide
  have hTokens : lex s.wave s.node s.name none = .ok [first, second] := by cbv
  obtain ⟨c, hCompile⟩ : ∃ c, s.compile.outcome = .ok c := by
    rw [Signal.outcome_compile, hTokens]
    exact ⟨_, rfl⟩
  obtain ⟨_, hLexed, _, hLength⟩ := Signal.of_compile hCompile
  have hTwo : c.tokens = [first, second] := Except.ok.inj (hLexed.symm.trans hTokens)
  have hFive : c.length = 5 := hLength
  have hNil : c.tokens ≠ [] := by simp [hTwo]
  obtain ⟨_, hStarts⟩ := compile_refines_wave hPeriod hCompile hNil
  have hOpens : second.OpensAfter first := .inr (.inr (.inr (.inr (.inr (by decide)))))
  refine ⟨hPeriod, c, hCompile, hNil, (hStarts 2).mpr (.inr ⟨0, first, second, ?_⟩)⟩
  exact ⟨by rw [hTwo]; rfl, by rw [hTwo]; rfl, rfl, by omega, hOpens⟩

end TimingDiagram
