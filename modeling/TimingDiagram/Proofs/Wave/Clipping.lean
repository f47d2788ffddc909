import TimingDiagram.Proofs.Wave.Attachments

/-! Clipping and merging. What a run has before a cut it has from its pieces before the cut, so that it
comes to the same to cut the pieces and merge what is left, or to merge them and cut the runs. -/
namespace TimingDiagram
namespace Segment

variable {start stop length : Int} {current : Segment} {segments rest : List Segment}

/-- Whether a segment goes on from another is told by how it opens, be it cut or not. -/
theorem absorbs_upTo (left right : Segment) (length : Int) :
    left.absorbs (right.upTo length) = left.absorbs right := rfl

/-- A run that is cut in its right part keeps the left one whole. -/
theorem upTo_merge {left right : Segment} (hLeft : left.GapsInside) (hNext : left.stop = right.start)
    (hCut : right.start ≤ length) : (left.merge right).upTo length = left.merge (right.upTo length) := by
  have hCycles : min (left.cycles + right.cycles) (length - left.start) =
      left.cycles + min right.cycles (length - right.start) := by
    simp only [Segment.stop] at hNext
    omega
  simp only [upTo, merge, hCycles, List.filter_append, gaps_filter_eq_self hLeft (hNext.trans_le hCut)]

/-- A run that is cut in its left part, or right after it, keeps nothing of the right one. -/
theorem upTo_merge_of_le {left right : Segment} (hRight : right.GapsInside)
    (hNext : left.stop = right.start) (hCycles : 1 ≤ right.cycles) (hCut : length ≤ right.start) :
    (left.merge right).upTo length = left.upTo length := by
  have hSame : min (left.cycles + right.cycles) (length - left.start) =
      min left.cycles (length - left.start) := by
    simp only [Segment.stop] at hNext
    omega
  simp only [upTo, merge, hSame, List.filter_append, gaps_filter_eq_nil hRight hCut, List.append_nil]

/-- A run that is open before a cut ends there with what its pieces have before it. The cases are
those of merging, split by whether the cut comes before the next piece or after its start. -/
theorem clip_coalesceFrom (hTiles : Tiles start stop (current :: rest))
    (hInside : ∀ s ∈ current :: rest, s.GapsInside) (hStart : current.start < length) :
    clip length (coalesceFrom current rest) =
      coalesceFrom (current.upTo length) (clip length rest) := by
  induction rest generalizing current start with
  | nil => exact clip_cons (hInside current (by simp)) hStart []
  | cons s rest ih =>
      obtain ⟨_, hCycles, hNext, hMore, hRest⟩ := id hTiles
      obtain ⟨hCurrent, hs, hOthers⟩ : current.GapsInside ∧ s.GapsInside ∧
          ∀ t ∈ rest, t.GapsInside := by simpa using hInside
      have hMerged : (current.merge s).GapsInside := hCurrent.merge hs hNext.symm hCycles hMore
      have hAlso : clip length (coalesceFrom (current.merge s) rest) =
          coalesceFrom ((current.merge s).upTo length) (clip length rest) :=
        ih hTiles.merge (List.forall_mem_cons.mpr ⟨hMerged, hOthers⟩) hStart
      by_cases hCut : length ≤ s.start
      · have hNone : clip length rest = [] := by
          apply hRest.clip_eq_nil
          simp only [Segment.stop]
          omega
        rw [hTiles.2.2.clip_eq_nil (hNext ▸ hCut), coalesceFrom, coalesceFrom]
        split_ifs
        · rw [hAlso, hNone, upTo_merge_of_le hs hNext.symm hMore hCut, coalesceFrom]
        · rw [clip_cons hCurrent hStart, (tiles_coalesceFrom hTiles.2.2).clip_eq_nil (hNext ▸ hCut)]
      · have hWhole : current.upTo length = current := upTo_of_stop_le hCurrent (by omega)
        rw [clip_cons hs (by omega), hWhole, coalesceFrom, coalesceFrom, absorbs_upTo]
        split_ifs
        · rw [hAlso, upTo_merge hCurrent hNext.symm (by omega)]
        · have hNow := ih hTiles.2.2 (List.forall_mem_cons.mpr ⟨hs, hOthers⟩) (by omega)
          rw [clip_cons hCurrent hStart, hWhole, hNow]

/-- Clipping and merging commute. -/
theorem clip_coalesce (hTiles : Tiles start stop segments)
    (hInside : ∀ s ∈ segments, s.GapsInside) :
    clip length (coalesce segments) = coalesce (clip length segments) := by
  cases segments with
  | nil => rfl
  | cons s rest =>
      by_cases hCut : length ≤ s.start
      · rw [hTiles.clip_eq_nil (hTiles.1 ▸ hCut), hTiles.coalesce.clip_eq_nil (hTiles.1 ▸ hCut)]
        rfl
      · rw [clip_cons (hInside s (by simp)) (by omega), coalesce, coalesce]
        exact clip_coalesceFrom hTiles hInside (by omega)

variable {tokens : List Token} {period : Int} {data : List String} {signal : String}

/-- The segments of a signal that is cut off are those of the whole one up to the cut. -/
theorem resolve_eq_clip (hTokens : Token.Numbered 0 tokens) (hPeriod : 1 ≤ period)
    (hLength : length ≤ tokens.length * period)
    (hKept : ∀ t ∈ tokens, t.anchor ≠ none → t.index * period < length) :
    resolve tokens period data (some length) signal =
      .ok (clip length (coalesce (pieces period tokens data))) := by
  have hTiles := tiles_pieces_zero hTokens hPeriod data
  rw [clip_coalesce hTiles (gapsInside_pieces hTokens hPeriod data), resolve, fitted]
  simp only [firstClipped_eq_none_iff.mpr hKept]
  rw [if_neg (by omega)]
  split_ifs with hShort
  · rfl
  · rw [hTiles.clip_eq_self (not_lt.mp hShort)]
    rfl

end Segment

/-- Cutting a signal at a length not past its tokens and merging its pieces commute: the segments are
those without a length, cut there with all that they carry. Where the cut takes away anchors the
signal is refused for the first token that has one there. -/
theorem resolve_clips_merged {wave source : String} {node : NodeSpec} {initial : Option Token}
    {tokens : List Token} {period length : Int} (data : List String) (name : String)
    (hTokens : lex wave node source initial = .ok tokens) (hPeriod : 1 ≤ period)
    (hLength : length ≤ tokens.length * period) :
    ((∀ t ∈ tokens, t.anchor ≠ none → t.index * period < length) →
        ∃ segments, Segment.resolve tokens period data none name = .ok segments ∧
          Segment.resolve tokens period data (some length) name =
            .ok (Segment.clip length segments)) ∧
      ((∃ t ∈ tokens, t.anchor ≠ none ∧ length ≤ t.index * period) →
        ∃ before t after anchor, tokens = before ++ t :: after ∧
          (∀ u ∈ before, u.anchor ≠ none → u.index * period < length) ∧
          t.anchor = some anchor ∧ length ≤ t.index * period ∧
          Segment.resolve tokens period data (some length) name =
            .error (.malformed (.anchorPastCycles anchor) ⟨name, some t.index⟩)) := by
  have hNumbered := lex_numbered hTokens
  constructor
  · intro hKept
    exact ⟨_, rfl, Segment.resolve_eq_clip hNumbered hPeriod hLength hKept⟩
  · rintro ⟨u, hu, hAnchored, hPast⟩
    obtain ⟨found, hFound⟩ : ∃ found, Segment.firstClipped period length tokens = some found := by
      apply Option.ne_none_iff_exists'.mp
      intro hNone
      have hBefore := Segment.firstClipped_eq_none_iff.mp hNone u hu hAnchored
      omega
    have hShort : length < tokens.length * period :=
      hPast.trans_lt (hNumbered.index_mul_lt hPeriod hu)
    obtain ⟨before, after, hSplit, hBefore, hAnchor, hCut⟩ :=
      Segment.firstClipped_eq_some_iff.mp hFound
    have hRefused : Segment.resolve tokens period data (some length) name =
        .error (.malformed (.anchorPastCycles found.2) ⟨name, some found.1.index⟩) :=
      Segment.resolve_eq_error_iff.mpr ⟨hShort, found, hFound, rfl⟩
    exact ⟨before, found.1, after, found.2, hSplit, hBefore, hAnchor, hCut, hRefused⟩

/-- A cut through the break within the second box, and one that takes away its anchor. -/
theorem resolve_clips_merged_boxes :
    lex "=[A].2|0" (.letters "a.b") "bus" none = .ok boxTokens ∧
      (∃ segments, Segment.resolve boxTokens 2 ["B"] none "bus" = .ok segments ∧
        Segment.resolve boxTokens 2 ["B"] (some 7) "bus" = .ok (Segment.clip 7 segments) ∧
        (Segment.clip 7 segments).map Segment.gaps = [[], [6]]) ∧
      Segment.resolve boxTokens 2 ["B"] (some 3) "bus" =
        .error (.malformed (.anchorPastCycles "b") ⟨"bus", some 2⟩) := by
  have hPeriod : (1 : Int) ≤ 2 := by decide
  have hSeven : (7 : Int) ≤ boxTokens.length * 2 := by decide
  have hThree : (3 : Int) ≤ boxTokens.length * 2 := by decide
  obtain ⟨hClipped, _⟩ := resolve_clips_merged ["B"] "bus" lex_boxTokens hPeriod hSeven
  obtain ⟨_, hRefused⟩ := resolve_clips_merged ["B"] "bus" lex_boxTokens hPeriod hThree
  obtain ⟨segments, hWhole, hCut⟩ := hClipped (by decide)
  obtain ⟨before, t, after, anchor, hSplit, _, hAnchor, hPast, hError⟩ := hRefused (by decide)
  have hOnly : ∀ u ∈ boxTokens, u.anchor ≠ none → (3 : Int) ≤ u.index * 2 →
      u.anchor = some "b" ∧ u.index = 2 := by decide
  obtain ⟨hName, hPlace⟩ := hOnly t (by simp [hSplit]) (by simp [hAnchor]) hPast
  obtain rfl : anchor = "b" := Option.some.inj (hAnchor.symm.trans hName)
  rw [hPlace] at hError
  refine ⟨lex_boxTokens, ⟨segments, hWhole, hCut, ?_⟩, hError⟩
  cases hWhole
  decide

end TimingDiagram
