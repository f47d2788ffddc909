import TimingDiagram.Proofs.Wave.Runs

/-! What is attached to the cycles of a signal: labels, anchors and breaks. Padding, clipping
and merging neither lose, double nor move any of them. -/
namespace TimingDiagram
namespace Segment

/-- The breaks of a segment lie within it. -/
def GapsInside (s : Segment) : Prop := ∀ g ∈ s.gaps, s.start ≤ g ∧ g < s.stop

/-- What a segment has before a cycle. -/
def upTo (s : Segment) (length : Int) : Segment :=
  { s with cycles := min s.cycles (length - s.start), gaps := s.gaps.filter (· < length) }

variable {start stop length : Int} {current s : Segment} {segments rest : List Segment}

theorem flatMap_gaps_coalesceFrom (current : Segment) (rest : List Segment) :
    (coalesceFrom current rest).flatMap gaps = current.gaps ++ rest.flatMap gaps := by
  induction rest generalizing current with
  | nil => simp [coalesceFrom]
  | cons s rest ih =>
      rw [coalesceFrom]
      split_ifs
      · rw [ih, merge, List.flatMap_cons, List.append_assoc]
      · rw [List.flatMap_cons, ih, List.flatMap_cons]

theorem flatMap_gaps_coalesce (segments : List Segment) :
    (coalesce segments).flatMap gaps = segments.flatMap gaps := by
  cases segments with
  | nil => rfl
  | cons s rest => rw [coalesce, flatMap_gaps_coalesceFrom, List.flatMap_cons]

theorem GapsInside.merge {left right : Segment} (hLeft : left.GapsInside)
    (hRight : right.GapsInside) (hNext : left.stop = right.start) (hCycles : 1 ≤ left.cycles)
    (hMore : 1 ≤ right.cycles) : (left.merge right).GapsInside := by
  intro g hg
  rw [stop_merge hNext]
  change left.start ≤ g ∧ g < right.stop
  simp only [Segment.stop] at hNext ⊢
  rcases List.mem_append.mp hg with hg | hg
  · have := hLeft g hg
    simp only [Segment.stop] at this
    omega
  · have := hRight g hg
    simp only [Segment.stop] at this
    omega

theorem gapsInside_coalesceFrom (hTiles : Tiles start stop (current :: rest))
    (hInside : ∀ s ∈ current :: rest, s.GapsInside) :
    ∀ s ∈ coalesceFrom current rest, s.GapsInside := by
  induction rest generalizing current start with
  | nil => exact hInside
  | cons s rest ih =>
      obtain ⟨_, hCycles, hNext, hMore, _⟩ := id hTiles
      obtain ⟨hCurrent, hs, hRest⟩ : current.GapsInside ∧ s.GapsInside ∧
          ∀ t ∈ rest, t.GapsInside := by simpa using hInside
      rw [coalesceFrom]
      split_ifs
      · have hMerged := hCurrent.merge hs hNext.symm hCycles hMore
        exact ih hTiles.merge (List.forall_mem_cons.mpr ⟨hMerged, hRest⟩)
      · have hOthers := ih hTiles.2.2 (List.forall_mem_cons.mpr ⟨hs, hRest⟩)
        exact List.forall_mem_cons.mpr ⟨hCurrent, hOthers⟩

theorem gapsInside_coalesce (hTiles : Tiles start stop segments)
    (hInside : ∀ s ∈ segments, s.GapsInside) : ∀ s ∈ coalesce segments, s.GapsInside := by
  cases segments with
  | nil => exact hInside
  | cons s rest => exact gapsInside_coalesceFrom hTiles hInside

theorem gaps_filter_eq_self (hInside : s.GapsInside) (hStop : s.stop ≤ length) :
    s.gaps.filter (· < length) = s.gaps := by
  apply List.filter_eq_self.mpr
  intro g hg
  have hBefore := (hInside g hg).2
  simp only [decide_eq_true_eq]
  omega

theorem gaps_filter_eq_nil (hInside : s.GapsInside) (hStart : length ≤ s.start) :
    s.gaps.filter (· < length) = [] := by
  apply List.filter_eq_nil_iff.mpr
  intro g hg
  have hFrom := (hInside g hg).1
  simp only [decide_eq_true_eq]
  omega

theorem upTo_of_stop_le (hInside : s.GapsInside) (hStop : s.stop ≤ length) :
    s.upTo length = s := by
  have hCycles : min s.cycles (length - s.start) = s.cycles := by
    simp only [Segment.stop] at hStop
    omega
  rw [upTo, hCycles, gaps_filter_eq_self hInside hStop]

/-- Clipping keeps of each segment what it has before the cut. -/
theorem clip_cons (hInside : s.GapsInside) (hStart : s.start < length) (segments : List Segment) :
    clip length (s :: segments) = s.upTo length :: clip length segments := by
  rw [clip, if_neg (by omega)]
  split_ifs with hCut
  · have hCycles : min s.cycles (length - s.start) = length - s.start := by
      simp only [Segment.stop] at hCut
      omega
    rw [upTo, hCycles]
  · rw [upTo_of_stop_le hInside (by omega)]

theorem GapsInside.upTo (hInside : s.GapsInside) : (s.upTo length).GapsInside := by
  intro g hg
  obtain ⟨hg, hBefore⟩ := List.mem_filter.mp hg
  have hGap := hInside g hg
  simp only [decide_eq_true_eq] at hBefore
  simp only [Segment.upTo, Segment.stop] at hGap ⊢
  omega

theorem filter_gaps_eq_nil (hTiles : Tiles start stop segments)
    (hInside : ∀ s ∈ segments, s.GapsInside) (hStart : length ≤ start) :
    (segments.flatMap gaps).filter (· < length) = [] := by
  apply List.filter_eq_nil_iff.mpr
  intro g hg
  obtain ⟨s, hs, hg⟩ := List.mem_flatMap.mp hg
  have hFrom := (hTiles.bounds s hs).1
  have hGap := (hInside s hs g hg).1
  simp only [decide_eq_true_eq]
  omega

theorem flatMap_gaps_clip (hTiles : Tiles start stop segments)
    (hInside : ∀ s ∈ segments, s.GapsInside) :
    (clip length segments).flatMap gaps = (segments.flatMap gaps).filter (· < length) := by
  induction segments generalizing start with
  | nil => rfl
  | cons s rest ih =>
      obtain ⟨hFirst, hOthers⟩ := List.forall_mem_cons.mp hInside
      by_cases hCut : length ≤ s.start
      · have hStart : length ≤ start := hTiles.1 ▸ hCut
        rw [hTiles.clip_eq_nil hStart, filter_gaps_eq_nil hTiles hInside hStart, List.flatMap_nil]
      · rw [clip_cons hFirst (by omega), List.flatMap_cons, List.flatMap_cons, List.filter_append,
          ih hTiles.2.2 hOthers]
        rfl

theorem gapsInside_clip (hInside : ∀ s ∈ segments, s.GapsInside) :
    ∀ s ∈ clip length segments, s.GapsInside := by
  induction segments with
  | nil => exact hInside
  | cons s rest ih =>
      obtain ⟨hFirst, hOthers⟩ := List.forall_mem_cons.mp hInside
      by_cases hCut : length ≤ s.start
      · rw [clip, if_pos hCut]
        simp
      · rw [clip_cons hFirst (by omega)]
        exact List.forall_mem_cons.mpr ⟨hFirst.upTo, ih hOthers⟩

variable {period : Int} {data : List String} {signal : String} {tokens : List Token}
  {declared : Option Int}

theorem gapsInside_pieceOf (hPeriod : 1 ≤ period) (t : Token) :
    (pieceOf period tokens data t).GapsInside := by
  intro g hg
  simp only [pieceOf, ofToken] at hg
  split_ifs at hg <;> simp_all [pieceOf, ofToken, Segment.stop]
  all_goals omega

theorem flatMap_gaps_pieces (hTokens : Token.Numbered 0 tokens) (period : Int)
    (data : List String) :
    (pieces period tokens data).flatMap gaps =
      (tokens.filter fun t => t.tag = .gap).map fun t => t.index * period := by
  have hPieces (few : List Token) : (few.map (pieceOf period tokens data)).flatMap gaps =
      (few.filter fun t => t.tag = .gap).map fun t => t.index * period := by
    induction few with
    | nil => rfl
    | cons t rest ih =>
        rw [List.map_cons, List.flatMap_cons, ih, List.filter_cons]
        by_cases hTag : t.tag = .gap <;> simp [pieceOf, ofToken, hTag]
  rw [pieces_eq_map hTokens, hPieces]

theorem gapsInside_pieces (hTokens : Token.Numbered 0 tokens) (hPeriod : 1 ≤ period)
    (data : List String) : ∀ s ∈ pieces period tokens data, s.GapsInside := by
  rw [pieces_eq_map hTokens]
  intro s hs
  obtain ⟨t, _, rfl⟩ := List.mem_map.mp hs
  exact gapsInside_pieceOf hPeriod t

theorem gaps_padding (total length : Int) (last : Option Segment) :
    (padding total length last).gaps = [] := by
  cases last <;> rfl

theorem gapsInside_fitted (hTokens : Token.Numbered 0 tokens) (hPeriod : 1 ≤ period)
    (h : fitted tokens period data declared signal = .ok segments) :
    ∀ s ∈ segments, s.GapsInside := by
  have hPieces := gapsInside_pieces hTokens hPeriod data
  rcases fitted_cases h with ⟨_, rfl⟩ | ⟨_, rfl⟩ | ⟨_, _, rfl⟩
  · exact hPieces
  · refine List.forall_mem_append.mpr ⟨hPieces, fun s hs g hg => ?_⟩
    rw [List.mem_singleton.mp hs, gaps_padding] at hg
    cases hg
  · exact gapsInside_clip hPieces

theorem gapsInside_resolve (hTokens : Token.Numbered 0 tokens) (hPeriod : 1 ≤ period)
    (h : resolve tokens period data declared signal = .ok segments) :
    ∀ s ∈ segments, s.GapsInside := by
  obtain ⟨ps, hFitted, rfl⟩ := resolve_eq_ok_iff.mp h
  have hInside := gapsInside_fitted hTokens hPeriod hFitted
  rcases lt_or_ge (declared.getD (tokens.length * period)) 0 with hNegative | hLength
  · rcases fitted_cases hFitted with ⟨hEq, _⟩ | ⟨hLong, _⟩ | ⟨_, _, rfl⟩
    · have := (tiles_pieces_zero hTokens hPeriod data).le
      omega
    · have := (tiles_pieces_zero hTokens hPeriod data).le
      omega
    · rw [(tiles_pieces_zero hTokens hPeriod data).clip_eq_nil hNegative.le]
      simp [coalesce]
  · exact gapsInside_coalesce (tiles_fitted hTokens hPeriod hLength hFitted) hInside

/-- The breaks of the segments of a signal are at its break symbols before its length. -/
theorem flatMap_gaps_resolve (hTokens : Token.Numbered 0 tokens) (hPeriod : 1 ≤ period)
    (h : resolve tokens period data declared signal = .ok segments) :
    segments.flatMap gaps = (tokens.filter fun t =>
      t.tag = .gap ∧ t.index * period < declared.getD (tokens.length * period)).map
        fun t => t.index * period := by
  obtain ⟨ps, hFitted, rfl⟩ := resolve_eq_ok_iff.mp h
  have hTiles := tiles_pieces_zero hTokens hPeriod data
  have hClipped (length : Int) : ((pieces period tokens data).flatMap gaps).filter (· < length) =
      (tokens.filter fun t => t.tag = .gap ∧ t.index * period < length).map
        fun t => t.index * period := by
    rw [flatMap_gaps_pieces hTokens, List.filter_map, List.filter_filter]
    simp only [Function.comp_apply, Bool.decide_and, Bool.and_comm]
  have hWhole {length : Int} (hLength : tokens.length * period ≤ length) :
      ((pieces period tokens data).flatMap gaps).filter (· < length) =
        (pieces period tokens data).flatMap gaps := by
    apply List.filter_eq_self.mpr
    intro g hg
    obtain ⟨s, hs, hg⟩ := List.mem_flatMap.mp hg
    have hStop := (hTiles.bounds s hs).2.2
    have hGap := (gapsInside_pieces hTokens hPeriod data s hs g hg).2
    simp only [decide_eq_true_eq]
    omega
  rw [flatMap_gaps_coalesce, ← hClipped]
  rcases fitted_cases hFitted with ⟨hEq, rfl⟩ | ⟨hLong, rfl⟩ | ⟨_, _, rfl⟩
  · rw [hWhole hEq.ge]
  · rw [hWhole hLong.le, List.flatMap_append, List.flatMap_singleton, gaps_padding,
      List.append_nil]
  · exact flatMap_gaps_clip hTiles (gapsInside_pieces hTokens hPeriod data)

/-- What a function that ignores joined pieces finds in the segments of a signal it finds in
the pieces of the tokens before its length. -/
theorem filterMap_resolve {α : Type} {f : Segment → Option α}
    (hOpening : ∀ s, f s.opening = f s)
    (hJoined : ∀ left right : Segment, left.joins right = true → f right = none)
    (hTokens : Token.Numbered 0 tokens) (hPeriod : 1 ≤ period)
    (h : resolve tokens period data declared signal = .ok segments) :
    segments.filterMap f =
      (tokens.filter fun t => t.index * period < declared.getD (tokens.length * period)).filterMap
        fun t => f (pieceOf period tokens data t) := by
  have hCompose : f ∘ opening = f := funext hOpening
  rcases eq_or_ne tokens [] with rfl | hNil
  · obtain ⟨ps, hFitted, rfl⟩ := resolve_eq_ok_iff.mp h
    rcases fitted_cases hFitted with ⟨_, rfl⟩ | ⟨_, rfl⟩ | ⟨_, _, rfl⟩
    · rfl
    · have hAlone (pad : Segment) (hAnchor : pad.anchor = none) (hKind : pad.kind ≠ .data) :
          f pad = none :=
        hJoined pad pad (joins_iff.mpr ⟨hAnchor, rfl, fun hData => absurd hData hKind⟩)
      simpa [pieces, coalesce, coalesceFrom] using
        hAlone (padding 0 _ none) rfl fun hKind => by cases hKind
    · rfl
  · have hBefore : ((tokens.map (pieceOf period tokens data)).filter fun s =>
        s.start < declared.getD (tokens.length * period)) = (tokens.filter fun t =>
          t.index * period < declared.getD (tokens.length * period)).map
            (pieceOf period tokens data) := by
      rw [List.filter_map]
      rfl
    rw [← hCompose, ← List.filterMap_map, map_opening_resolve hTokens hNil hPeriod h,
      List.filterMap_map, hCompose, List.filterMap_filter, filterMap_firsts,
      ← List.filterMap_filter, pieces_eq_map hTokens, hBefore, List.filterMap_map]
    · rfl
    · intro left right hJoins
      rw [hJoined left right hJoins, ite_self]

theorem firstClipped_eq_none_iff :
    firstClipped period length tokens = none ↔
      ∀ t ∈ tokens, t.anchor ≠ none → t.index * period < length := by
  rw [firstClipped, List.findSome?_eq_none_iff]
  apply forall₂_congr
  intro t _
  cases t.anchor <;> simp

/-- The anchor that is reported is the first one past the length. -/
theorem firstClipped_eq_some_iff {found : Token × String} :
    firstClipped period length tokens = some found ↔ ∃ before after,
      tokens = before ++ found.1 :: after ∧
        (∀ t ∈ before, t.anchor ≠ none → t.index * period < length) ∧
        found.1.anchor = some found.2 ∧ length ≤ found.1.index * period := by
  obtain ⟨t, name⟩ := found
  rw [firstClipped, List.findSome?_eq_some_iff]
  constructor
  · rintro ⟨before, u, after, rfl, hFound, hBefore⟩
    have hKept := firstClipped_eq_none_iff.mp (List.findSome?_eq_none_iff.mpr hBefore)
    cases hAnchor : u.anchor with
    | none => simp [hAnchor] at hFound
    | some anchor =>
        simp only [hAnchor, Option.ite_none_right_eq_some, Option.some.injEq, Prod.mk.injEq]
          at hFound
        obtain ⟨hPast, rfl, rfl⟩ := hFound
        exact ⟨before, after, rfl, hKept, hAnchor, hPast⟩
  · rintro ⟨before, after, rfl, hBefore, hAnchor, hPast⟩
    simp only at hAnchor hPast
    have hNone := List.findSome?_eq_none_iff.mp (firstClipped_eq_none_iff.mpr hBefore)
    exact ⟨before, t, after, rfl, by simp only [hAnchor, if_pos hPast], hNone⟩

/-- Segments are refused only where the declared length cuts off an anchor. -/
theorem resolve_eq_error_iff {e : Error} :
    resolve tokens period data (some length) signal = .error e ↔
      length < tokens.length * period ∧ ∃ found, firstClipped period length tokens = some found ∧
        e = .malformed (.anchorPastCycles found.2) ⟨signal, some found.1.index⟩ := by
  simp only [resolve, fitted]
  split_ifs with hLong hShort
  · simp only [Except.map, reduceCtorEq, false_iff, not_and]
    omega
  · split
    · rename_i t name hFound
      simp [Except.map, hShort, hFound, eq_comm]
    · rename_i hKept
      simp [Except.map, hKept]
  · simp only [Except.map, reduceCtorEq, false_iff, not_and]
    exact fun h => absurd h hShort

/-- No anchor lies past the length of a signal that has segments. -/
theorem anchored_before_length (hTokens : Token.Numbered 0 tokens) (hPeriod : 1 ≤ period)
    (h : resolve tokens period data declared signal = .ok segments) :
    ∀ t ∈ tokens, t.anchor ≠ none →
      t.index * period < declared.getD (tokens.length * period) := by
  obtain ⟨ps, hFitted, rfl⟩ := resolve_eq_ok_iff.mp h
  intro t ht hAnchor
  have hBefore := hTokens.index_mul_lt hPeriod ht
  rcases fitted_cases hFitted with ⟨hEq, _⟩ | ⟨hLong, _⟩ | ⟨_, hKept, _⟩
  · exact hEq.symm ▸ hBefore
  · exact hBefore.trans hLong
  · exact firstClipped_eq_none_iff.mp hKept t ht hAnchor

theorem anchors_resolve (hTokens : Token.Numbered 0 tokens) (hPeriod : 1 ≤ period)
    (h : resolve tokens period data declared signal = .ok segments) :
    (segments.filterMap fun s => s.anchor.map fun name => (name, s.start)) =
      tokens.filterMap fun t => t.anchor.map fun name => (name, t.index * period) := by
  have hBefore := anchored_before_length hTokens hPeriod h
  rw [filterMap_resolve (fun _ => rfl) _ hTokens hPeriod h, List.filterMap_filter]
  · apply List.filterMap_congr
    intro t ht
    cases hAnchor : t.anchor with
    | none => simp [pieceOf, ofToken, hAnchor]
    | some name =>
        have := hBefore t ht (by simp [hAnchor])
        simp [pieceOf, ofToken, hAnchor, this]
  · intro left right hJoins
    simp [(joins_iff.mp hJoins).1]

/-- The boxes that continue none are those of the data symbols before the length of the signal,
each with the label of its symbol. -/
theorem labels_resolve (hTokens : Token.Numbered 0 tokens) (hPeriod : 1 ≤ period)
    (hResolved : ∀ t ∈ tokens, t.tag.isContinuation = false → t.resolved = t.tag)
    (h : resolve tokens period data declared signal = .ok segments) :
    ((segments.filter isFreshBox).map fun s => (s.start, s.label)) =
      (tokens.filter fun t =>
        t.tag = .data ∧ t.index * period < declared.getD (tokens.length * period)).map
          fun t => (t.index * period, t.labelOf tokens data) := by
  rw [← List.filterMap_eq_map', ← List.filterMap_eq_map', List.filterMap_filter,
    filterMap_resolve (fun _ => rfl) _ hTokens hPeriod h, List.filterMap_filter,
    List.filterMap_filter]
  · apply List.filterMap_congr
    intro t ht
    rw [isFreshBox_pieceOf (hResolved t ht)]
    by_cases hData : t.tag = .data
    · simp [pieceOf, ofToken, hData]
    · simp [hData]
  · intro left right hJoins
    rw [if_neg]
    simp only [isFreshBox, Bool.and_eq_true, decide_eq_true_eq, Bool.not_eq_true', not_and]
    intro hKind
    simp [(joins_iff.mp hJoins).2.2 hKind]

/-- A segment opens with the piece of a token; only without tokens it is the padding. -/
theorem mem_resolve_cases {s : Segment} (hTokens : Token.Numbered 0 tokens)
    (hPeriod : 1 ≤ period) (h : resolve tokens period data declared signal = .ok segments)
    (hs : s ∈ segments) :
    (∃ t ∈ tokens, s.opening = (pieceOf period tokens data t).opening) ∨
      tokens = [] ∧ s = padding 0 (declared.getD 0) none := by
  rcases eq_or_ne tokens [] with rfl | hNil
  · obtain ⟨ps, hFitted, rfl⟩ := resolve_eq_ok_iff.mp h
    rcases fitted_cases hFitted with ⟨_, rfl⟩ | ⟨_, rfl⟩ | ⟨_, _, rfl⟩
    · cases hs
    · exact .inr ⟨rfl, by simpa [pieces, coalesce, coalesceFrom] using hs⟩
    · cases hs
  · have hOpening : s.opening ∈ segments.map opening := List.mem_map_of_mem hs
    rw [map_opening_resolve hTokens hNil hPeriod h] at hOpening
    obtain ⟨piece, hPiece, hEq⟩ := List.mem_map.mp hOpening
    have hMem := mem_of_mem_firsts (List.mem_filter.mp hPiece).1
    rw [pieces_eq_map hTokens] at hMem
    obtain ⟨t, ht, rfl⟩ := List.mem_map.mp hMem
    exact .inl ⟨t, ht, hEq.symm⟩

/-- Segments start at the borders of symbols. -/
theorem dvd_start_resolve {s : Segment} (hTokens : Token.Numbered 0 tokens)
    (hPeriod : 1 ≤ period) (h : resolve tokens period data declared signal = .ok segments)
    (hs : s ∈ segments) : period ∣ s.start := by
  rcases mem_resolve_cases hTokens hPeriod h hs with ⟨t, _, hOpening⟩ | ⟨_, rfl⟩
  · have hStart : s.start = t.index * period := congrArg Segment.start hOpening
    exact hStart ▸ Dvd.intro_left _ rfl
  · exact dvd_zero period

/-- What is left of the symbol of a break lies within the segment of the break. -/
theorem gap_room_resolve {s : Segment} {g : Int} (hTokens : Token.Numbered 0 tokens)
    (hPeriod : 1 ≤ period) (hLength : 0 ≤ declared.getD (tokens.length * period))
    (h : resolve tokens period data declared signal = .ok segments) (hs : s ∈ segments)
    (hg : g ∈ s.gaps) :
    s.start ≤ g ∧ g < declared.getD (tokens.length * period) ∧
      g + min period (declared.getD (tokens.length * period) - g) ≤ s.stop := by
  have hAll : g ∈ segments.flatMap gaps := List.mem_flatMap.mpr ⟨s, hs, hg⟩
  rw [flatMap_gaps_resolve hTokens hPeriod h] at hAll
  obtain ⟨t, ht, hPlace⟩ := List.mem_map.mp hAll
  have hBefore : t.index * period < declared.getD (tokens.length * period) := by
    simpa using (of_decide_eq_true (List.mem_filter.mp ht).2).2
  rw [hPlace] at hBefore
  obtain ⟨hFrom, hTo⟩ := gapsInside_resolve hTokens hPeriod h s hs g hg
  refine ⟨hFrom, hBefore, ?_⟩
  rcases (tiles_resolve hTokens hPeriod hLength h).stop_cases s hs with hLast | ⟨next, hNext, hStart⟩
  · omega
  · -- The segment goes on to the border of a symbol, and the next border is a period away.
    obtain ⟨n, hn⟩ := dvd_start_resolve hTokens hPeriod h hNext
    have hStop : s.stop = n * period := by rw [← hStart, hn, mul_comm]
    rw [← hPlace, hStop] at hTo
    have hEarlier : (t.index : Int) < n := lt_of_mul_lt_mul_right hTo (by omega)
    have hBorder := mul_le_mul_of_nonneg_right (Int.add_one_le_iff.mpr hEarlier)
      (zero_le_one.trans hPeriod)
    rw [add_one_mul, hPlace] at hBorder
    omega

theorem label_resolve (hTokens : Token.Numbered 0 tokens) (hPeriod : 1 ≤ period)
    (hResolved : ∀ t ∈ tokens, t.tag.isContinuation = false → t.resolved = t.tag)
    (h : resolve tokens period data declared signal = .ok segments) :
    ∀ s ∈ segments, s.isFreshBox = false → s.label = none := by
  intro s hs hFresh
  rcases mem_resolve_cases hTokens hPeriod h hs with ⟨t, ht, hOpening⟩ | ⟨_, rfl⟩
  · have hPiece : (pieceOf period tokens data t).isFreshBox = false := by
      change (pieceOf period tokens data t).opening.isFreshBox = false
      rwa [← hOpening]
    have hTag : t.tag ≠ .data := by
      simpa [isFreshBox_pieceOf (hResolved t ht)] using hPiece
    calc s.label
      _ = s.opening.label := rfl
      _ = (pieceOf period tokens data t).label := by rw [hOpening, label_opening]
      _ = none := by simp [pieceOf, ofToken, hTag]
  · rfl

end Segment

/-- No label, anchor or break of a wave is lost, doubled or moved. The anchors are those of the
tokens, at their places. The breaks are at the break symbols before the length of the signal,
each within its segment. The boxes that continue none are those of the data symbols before that
length; they alone have labels, namely those of their symbols. -/
theorem resolve_attachments {wave source name : String} {node : NodeSpec} {initial : Option Token}
    {tokens : List Token} {period : Int} {data : List String} {declared : Option Int}
    {segments : List Segment} (hTokens : lex wave node source initial = .ok tokens)
    (hPeriod : 1 ≤ period)
    (h : Segment.resolve tokens period data declared name = .ok segments) :
    let length := declared.getD (tokens.length * period)
    (segments.filterMap fun s => s.anchor.map fun anchor => (anchor, s.start)) =
        (tokens.filterMap fun t => t.anchor.map fun anchor => (anchor, t.index * period)) ∧
      (segments.flatMap Segment.gaps =
          (tokens.filter fun t => t.tag = .gap ∧ t.index * period < length).map
            fun t => t.index * period) ∧
      (∀ s ∈ segments, ∀ g ∈ s.gaps, s.start ≤ g ∧ g < s.stop) ∧
      (((segments.filter fun s => s.kind = .data && !s.continuation).map
          fun s => (s.start, s.label)) =
        (tokens.filter fun t => t.tag = .data ∧ t.index * period < length).map
          fun t => (t.index * period, t.labelOf tokens data)) ∧
      ∀ s ∈ segments, (s.kind = .data && !s.continuation) = false → s.label = none := by
  have hNumbered := lex_numbered hTokens
  have hResolved := lex_resolved hTokens
  exact ⟨Segment.anchors_resolve hNumbered hPeriod h, Segment.flatMap_gaps_resolve hNumbered hPeriod h,
    Segment.gapsInside_resolve hNumbered hPeriod h,
    Segment.labels_resolve hNumbered hPeriod hResolved h,
    Segment.label_resolve hNumbered hPeriod hResolved h⟩

/-- The tokens of a wave with a labelled box, its repeat, and a break within the next box. -/
def boxTokens : List Token :=
  [⟨0, '=', .data, .data, none, 2, some "A", some "a"⟩,
    ⟨1, '.', .again, .data, some .data, 2, none, none⟩,
    ⟨2, '2', .data, .data, some .data, 2, none, some "b"⟩,
    ⟨3, '|', .gap, .data, some .data, 2, none, none⟩,
    ⟨4, '0', .low, .low, some .data, 0, none, none⟩]

theorem lex_boxTokens : lex "=[A].2|0" (.letters "a.b") "bus" none = .ok boxTokens := by
  let gs : List Glyph := [⟨'=', .data, some ['A']⟩, ⟨'.', .again, none⟩, ⟨'2', .data, none⟩,
    ⟨'|', .gap, none⟩, ⟨'0', .low, none⟩]
  have hValid : ∀ g ∈ gs, g.Valid := by decide
  have hSpell : "=[A].2|0".toList = Glyph.spell gs := by decide
  have hEnds : (NodeSpec.letters "a.b").EndsAt gs.length :=
    fun i hi => NodeSpec.anchorAt_eq_none (le_trans (by decide) hi)
  rw [lex_of_endsAt hValid hSpell hEnds]
  rfl

/-- The last symbol is cut, and the second box takes the label of the list. -/
theorem resolve_attachments_boxes :
    lex "=[A].2|0" (.letters "a.b") "bus" none = .ok boxTokens ∧
      ∃ segments, Segment.resolve boxTokens 2 ["B"] (some 9) "bus" = .ok segments ∧
        (segments.filterMap fun s => s.anchor.map fun anchor => (anchor, s.start)) =
          [("a", 0), ("b", 4)] ∧
        segments.flatMap Segment.gaps = [6] ∧
        ((segments.filter fun s => s.kind = .data && !s.continuation).map
          fun s => (s.start, s.label)) = [(0, some "A"), (4, some "B")] := by
  obtain ⟨segments, hSegments⟩ :
      ∃ segments, Segment.resolve boxTokens 2 ["B"] (some 9) "bus" = .ok segments := ⟨_, rfl⟩
  obtain ⟨hAnchors, hGaps, _, hLabels, _⟩ := resolve_attachments lex_boxTokens (by decide) hSegments
  exact ⟨lex_boxTokens, segments, hSegments, hAnchors.trans (by decide), hGaps.trans (by decide),
    hLabels.trans (by decide)⟩

end TimingDiagram
