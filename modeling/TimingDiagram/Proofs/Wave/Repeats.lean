import TimingDiagram.Layout.Grid
import TimingDiagram.Proofs.Wave.Meaning

/-! Repeats at the end of a wave. Writing them and declaring more cycles come to the same: the
tokens that are added go on as the last one, and so does the run that fills the cycles up, so that
merging leaves no trace of which of the two it was. -/
namespace TimingDiagram

open Glyph

/-- A wave with some repeats written after it. -/
def repeated (wave : String) (count : Nat) : String :=
  wave ++ String.ofList (List.replicate count '.')

theorem repeated_zero (wave : String) : repeated wave 0 = wave := String.append_empty

namespace Glyph

/-- The glyph of a repeat. -/
def point : Glyph := ⟨'.', .again, none⟩

theorem valid_point : point.Valid := ⟨rfl, by simp [point]⟩

theorem spell_points (count : Nat) :
    spell (List.replicate count point) = List.replicate count '.' := by
  induction count with
  | zero => rfl
  | succ count ih =>
      rw [List.replicate_succ, spell_cons, ih]
      rfl

theorem spell_repeated {wave : String} {gs : List Glyph} (h : wave.toList = spell gs)
    (count : Nat) :
    (repeated wave count).toList = spell (gs ++ List.replicate count point) := by
  rw [repeated, String.toList_append, String.toList_ofList, h, spell_append, spell_points]

end Glyph

namespace Token

/-- The token of a repeat after a token. -/
def again (t : Token) (index : Nat) : Token :=
  ⟨index, '.', .again, t.resolved, some t.resolved, t.color, none, none⟩

/-- The tokens of some repeats after a token. -/
def agains (t : Token) (start count : Nat) : List Token := (List.range' start count).map t.again

@[simp] theorem length_agains (t : Token) (start count : Nat) :
    (t.agains start count).length = count := by
  rw [agains, List.length_map, List.length_range']

theorem eq_again_of_mem_agains {t u : Token} {start count : Nat} (h : u ∈ t.agains start count) :
    ∃ i, u = t.again i := by
  obtain ⟨i, _, rfl⟩ := List.mem_map.mp h
  exact ⟨i, rfl⟩

theorem numbered_agains (t : Token) (start count : Nat) :
    Numbered start (t.agains start count) := by
  rw [Numbered, length_agains, agains, List.map_map]
  exact List.map_id _

theorem sequence_points {t last : Token} (hState : t.resolved = last.resolved)
    (hColor : t.color = last.color) (index count : Nat) :
    sequence (some t) index (List.replicate count (point, none)) =
      .ok (last.agains index count) := by
  induction count generalizing t index with
  | zero => rfl
  | succ count ih =>
      have hToken : ofGlyph? (some t) index point none = some (last.again index) := by
        rw [ofGlyph?, again, ← hState, ← hColor]
        rfl
      rw [List.replicate_succ, sequence, hToken, agains, List.range'_succ, List.map_cons]
      simp only [ih (t := last.again index) rfl rfl]
      rfl

end Token

variable {wave signal : String} {node : NodeSpec} {initial : Option Token} {tokens : List Token}

theorem entriesOf_repeated {gs : List Glyph} (h : node.EndsAt gs.length) (count : Nat) :
    entriesOf node (gs ++ List.replicate count point) =
      entriesOf node gs ++ List.replicate count (point, none) := by
  have hAnchors : ((List.range count).map (gs.length + ·)).map node.anchorAt =
      List.replicate count none := by
    apply List.eq_replicate_iff.mpr
    refine ⟨by simp, fun anchor hMem => ?_⟩
    rw [List.map_map] at hMem
    obtain ⟨i, _, rfl⟩ := List.mem_map.mp hMem
    exact h _ (Nat.le_add_right _ i)
  rw [entriesOf, entriesOf, List.length_append, List.length_replicate, List.range_add,
    List.map_append, hAnchors, List.zip_append (by simp), List.zip_replicate']

/-- The tokens of a wave with repeats after it are those of the wave and those of the repeats. -/
theorem lex_repeated {last : Token} (h : lex wave node signal initial = .ok tokens)
    (hLast : tokens.getLast? = some last) (count : Nat) :
    lex (repeated wave count) node signal initial =
      .ok (tokens ++ last.agains tokens.length count) := by
  obtain ⟨gs, hValid, hSpell, hEnds, hTokens⟩ := lex_eq_ok h
  have hValids : ∀ g ∈ gs ++ List.replicate count point, g.Valid := by
    refine List.forall_mem_append.mpr ⟨hValid, fun g hg => ?_⟩
    rw [List.eq_of_mem_replicate hg]
    exact valid_point
  have hMore : node.EndsAt (gs ++ List.replicate count point).length := fun i hi =>
    hEnds i (le_trans (by simp) hi)
  have hLength : (entriesOf node gs).length = tokens.length := by
    rw [lex_length h hValid hSpell, ← List.length_map (f := Prod.fst), map_fst_entriesOf]
  rw [lex_of_endsAt hValids (spell_repeated hSpell count) hMore, entriesOf_repeated hEnds,
    Token.sequence_append hTokens, hLast, Option.some_or, Token.sequence_points rfl rfl, hLength,
    Nat.zero_add]
  rfl

/-- A wave has tokens when it is not empty. -/
theorem tokens_ne_nil (h : lex wave node signal initial = .ok tokens) (hWave : wave ≠ "") :
    tokens ≠ [] := by
  obtain ⟨gs, hValid, hSpell, _, _⟩ := lex_eq_ok h
  rintro rfl
  have hGlyphs : gs = [] := List.length_eq_zero_iff.mp (lex_length h hValid hSpell).symm
  rw [hGlyphs, spell_nil] at hSpell
  exact hWave (String.toList_eq_nil_iff.mp hSpell)

namespace Segment

/-- A piece that goes on in a look without a mark of its own. -/
structure Prolongs (s : Segment) (look : Look) : Prop where
  look : s.look = look
  anchor : s.anchor = none
  label : s.label = none
  continuation : s.continuation = true
  gaps : s.gaps = []

variable {start middle stop length : Int} {current s : Segment} {segments rest : List Segment}
  {look : Look}

theorem Prolongs.of_opening (h : s.Prolongs look) {cut : Segment}
    (hOpening : cut.opening = s.opening) (hGaps : cut.gaps ⊆ s.gaps) : cut.Prolongs look where
  look := by rw [← look_opening, hOpening, look_opening, h.look]
  anchor := by rw [← anchor_opening, hOpening, anchor_opening, h.anchor]
  label := by rw [← label_opening, hOpening, label_opening, h.label]
  continuation := by rw [← continuation_opening, hOpening, continuation_opening, h.continuation]
  gaps := List.eq_nil_of_subset_nil (h.gaps ▸ hGaps)

theorem Prolongs.absorbs (h : s.Prolongs look) (hLook : current.look = look)
    (hNext : current.stop = s.start) : current.absorbs s = true :=
  absorbs_iff.mpr
    ⟨h.anchor, hNext, hLook.trans h.look.symm, fun _ => ⟨h.continuation, .inl h.label⟩⟩

/-- Pieces that prolong a run become part of it. -/
theorem coalesceFrom_prolongs (hTiles : Tiles current.stop stop rest)
    (h : ∀ s ∈ rest, s.Prolongs current.look) :
    coalesceFrom current rest = [{ current with cycles := stop - current.start }] := by
  induction rest generalizing current with
  | nil =>
      have hStop : current.start + current.cycles = stop := hTiles
      rw [coalesceFrom, ← hStop, add_sub_cancel_left]
  | cons s rest ih =>
      obtain ⟨hStart, _, hRest⟩ := hTiles
      obtain ⟨hs, hOthers⟩ := List.forall_mem_cons.mp h
      rw [coalesceFrom, if_pos (hs.absorbs rfl hStart.symm), ih]
      · rw [merge, hs.gaps, List.append_nil]
      · rwa [stop_merge hStart.symm]
      · exact hOthers

/-- How far the pieces go that prolong a row is all that merging sees of them. -/
theorem coalesceFrom_append_prolongs {more others : List Segment}
    (hTiles : Tiles start middle (current :: rest)) (hMore : Tiles middle stop more)
    (hOthers : Tiles middle stop others)
    (hLast : ∀ last ∈ (current :: rest).getLast?, last.look = look)
    (hProlongs : ∀ s ∈ more, s.Prolongs look) (hOtherwise : ∀ s ∈ others, s.Prolongs look) :
    coalesceFrom current (rest ++ more) = coalesceFrom current (rest ++ others) := by
  induction rest generalizing current start with
  | nil =>
      obtain rfl : current.stop = middle := hTiles.2.2
      obtain rfl : current.look = look := hLast current rfl
      rw [List.nil_append, List.nil_append, coalesceFrom_prolongs hMore hProlongs,
        coalesceFrom_prolongs hOthers hOtherwise]
  | cons s rest ih =>
      have hTail : ∀ last ∈ (s :: rest).getLast?, last.look = look := by
        rwa [List.getLast?_cons_cons] at hLast
      rw [List.cons_append, List.cons_append, coalesceFrom, coalesceFrom]
      split_ifs with hAbsorbs
      · apply ih hTiles.merge
        cases rest with
        | nil =>
            intro last hMem
            obtain rfl : current.merge s = last := by simpa using hMem
            rw [look_merge, (absorbs_iff.mp hAbsorbs).2.2.1]
            exact hTail s rfl
        | cons next rest => rwa [List.getLast?_cons_cons] at hTail ⊢
      · rw [ih hTiles.2.2 hTail]

theorem coalesce_append_prolongs {more others : List Segment} (hNil : segments ≠ [])
    (hTiles : Tiles start middle segments) (hMore : Tiles middle stop more)
    (hOthers : Tiles middle stop others)
    (hLast : ∀ last ∈ segments.getLast?, last.look = look)
    (hProlongs : ∀ s ∈ more, s.Prolongs look) (hOtherwise : ∀ s ∈ others, s.Prolongs look) :
    coalesce (segments ++ more) = coalesce (segments ++ others) := by
  cases segments with
  | nil => exact absurd rfl hNil
  | cons s rest =>
      exact coalesceFrom_append_prolongs hTiles hMore hOthers hLast hProlongs hOtherwise

variable {period : Int} {data : List String}

theorem pieces_append {more : List Token} (hMore : ∀ t ∈ more, t.tag ≠ .data) (period : Int)
    (tokens : List Token) (labels : List String) :
    pieces period (tokens ++ more) labels =
      pieces period tokens labels ++ more.map (ofToken period none) := by
  induction tokens generalizing labels with
  | nil =>
      rw [List.nil_append, pieces, List.nil_append]
      induction more with
      | nil => rfl
      | cons t more ih =>
          obtain ⟨ht, hMore⟩ := List.forall_mem_cons.mp hMore
          rw [pieces, if_neg ht, ih hMore, List.map_cons]
  | cons t tokens ih => rw [List.cons_append, pieces_cons, pieces_cons, ih, List.cons_append]

theorem prolongs_ofToken (period : Int) (last : Token) (index : Nat) :
    (ofToken period none (last.again index)).Prolongs last.look := ⟨rfl, rfl, rfl, rfl, rfl⟩

theorem prolongs_padding {last : Segment} (total length : Int) :
    (padding total length (some last)).Prolongs last.look := ⟨rfl, rfl, rfl, rfl, rfl⟩

variable {last : Token}

theorem look_getLast?_pieces (hTokens : Token.Numbered 0 tokens)
    (hLast : tokens.getLast? = some last) :
    ∀ s ∈ (pieces period tokens data).getLast?, s.look = last.look := by
  rw [pieces_eq_map hTokens, List.getLast?_map, hLast, Option.map_some]
  rintro s ⟨⟩
  exact look_pieceOf last

theorem pieces_ne_nil (hTokens : Token.Numbered 0 tokens) (hLast : tokens.getLast? = some last) :
    pieces period tokens data ≠ [] := by
  rw [pieces_eq_map hTokens, Ne, List.map_eq_nil_iff]
  rintro rfl
  cases hLast

/-- The run that fills up the cycles after some pieces prolongs the last of them. -/
theorem tiles_padding {total : Int} {look : Look} (hNil : segments ≠ [])
    (hLook : ∀ s ∈ segments.getLast?, s.look = look) (hLength : total < length) :
    Tiles total length [padding total length segments.getLast?] ∧
      (padding total length segments.getLast?).Prolongs look := by
  obtain ⟨s, hs⟩ := Option.ne_none_iff_exists'.mp fun hNone =>
    hNil (List.getLast?_eq_none_iff.mp hNone)
  rw [hs]
  refine ⟨⟨rfl, ?_, ?_⟩, hLook s hs ▸ prolongs_padding total length⟩
  · simp only [padding]
    omega
  · simp only [padding, tiles_nil, Segment.stop]
    omega

/-- Fitting the tokens of a wave and its repeats to a length past the wave keeps the pieces of the
wave and prolongs the last one up to that length, be the repeats too few, too many or none. -/
theorem fitted_agains (data : List String) (signal : String) (hTokens : Token.Numbered 0 tokens)
    (hLast : tokens.getLast? = some last) (hPeriod : 1 ≤ period)
    (hLength : tokens.length * period ≤ length) (count : Nat) :
    ∃ more, fitted (tokens ++ last.agains tokens.length count) period data (some length) signal =
        .ok (pieces period tokens data ++ more) ∧
      Tiles (tokens.length * period) length more ∧ ∀ s ∈ more, s.Prolongs last.look := by
  let more := (last.agains tokens.length count).map (ofToken period none)
  have hPlain : ∀ t ∈ last.agains tokens.length count, t.tag ≠ .data := by
    intro t ht
    obtain ⟨i, rfl⟩ := Token.eq_again_of_mem_agains ht
    exact fun hTag => by cases hTag
  have hNumbered := Token.numbered_agains last tokens.length count
  have hTiles : Tiles (tokens.length * period) ((tokens.length + count : Nat) * period) more := by
    have hPieces : pieces period (last.agains tokens.length count) [] = more :=
      pieces_append hPlain period [] []
    have h := tiles_pieces hPeriod hNumbered []
    rwa [hPieces, Token.length_agains] at h
  have hProlongs : ∀ s ∈ more, s.Prolongs last.look := by
    intro s hs
    obtain ⟨t, ht, rfl⟩ := List.mem_map.mp hs
    obtain ⟨i, rfl⟩ := Token.eq_again_of_mem_agains ht
    exact prolongs_ofToken period last i
  have hPieces := tiles_pieces_zero hTokens hPeriod data
  have hLook : ∀ s ∈ (pieces period tokens data ++ more).getLast?, s.look = last.look := by
    intro s hs
    rw [List.getLast?_append] at hs
    rcases Option.or_eq_some_iff.mp hs with hs | ⟨_, hs⟩
    · exact (hProlongs s (List.mem_of_getLast? hs)).look
    · exact look_getLast?_pieces hTokens hLast s hs
  have hKept : firstClipped period length (tokens ++ last.agains tokens.length count) = none := by
    refine firstClipped_eq_none_iff.mpr (List.forall_mem_append.mpr ⟨fun t ht _ => ?_, ?_⟩)
    · exact (hTokens.index_mul_lt hPeriod ht).trans_le hLength
    · intro t ht hAnchor
      obtain ⟨i, rfl⟩ := Token.eq_again_of_mem_agains ht
      exact absurd rfl hAnchor
  simp only [fitted, pieces_append hPlain, List.length_append, Token.length_agains]
  split_ifs with hLong hShort
  · have hNil : pieces period tokens data ++ more ≠ [] :=
      List.append_ne_nil_of_left_ne_nil (pieces_ne_nil hTokens hLast) more
    obtain ⟨hPad, hPadProlongs⟩ := tiles_padding hNil hLook hLong
    refine ⟨more ++ [_], by rw [List.append_assoc], hTiles.append hPad, ?_⟩
    exact List.forall_mem_append.mpr ⟨hProlongs, by simpa using hPadProlongs⟩
  · rw [hKept]
    refine ⟨clip length more, ?_, hTiles.clip hLength hShort.le, fun s hs => ?_⟩
    · simp only [clip_append hPieces hLength]
      rfl
    · obtain ⟨whole, hWhole, hOpening, _, hGaps⟩ := mem_clip hs
      exact (hProlongs whole hWhole).of_opening hOpening hGaps
  · exact ⟨more, rfl, le_antisymm (not_lt.mp hLong) (not_lt.mp hShort) ▸ hTiles, hProlongs⟩

/-- The segments of a signal with a length past its wave do not show how many repeats of the wave
are written. -/
theorem resolve_agains (data : List String) (signal : String) (hTokens : Token.Numbered 0 tokens)
    (hLast : tokens.getLast? = some last) (hPeriod : 1 ≤ period)
    (hLength : tokens.length * period ≤ length) :
    ∃ segments, ∀ count,
      resolve (tokens ++ last.agains tokens.length count) period data (some length) signal =
        .ok segments := by
  have hPieces := tiles_pieces_zero hTokens hPeriod data
  obtain ⟨others, _, hOthers, hOtherwise⟩ :=
    fitted_agains data signal hTokens hLast hPeriod hLength 0
  refine ⟨coalesce (pieces period tokens data ++ others), fun count => ?_⟩
  obtain ⟨more, hMore, hTiles, hProlongs⟩ :=
    fitted_agains data signal hTokens hLast hPeriod hLength count
  rw [resolve, hMore]
  exact congrArg Except.ok (coalesce_append_prolongs (pieces_ne_nil hTokens hLast) hPieces hTiles
    hOthers (look_getLast?_pieces hTokens hLast) hProlongs hOtherwise)

end Segment

theorem cycleMarks_of_continuations {period : Nat}
    (h : ∀ t ∈ tokens, t.tag.isContinuation = true) (length : Nat) :
    cycleMarks period tokens length = List.replicate length true := by
  induction tokens generalizing length with
  | nil => rfl
  | cons t tokens ih =>
      obtain ⟨ht, hRest⟩ := List.forall_mem_cons.mp h
      rw [cycleMarks, ht, ih hRest, List.replicate_append_replicate]
      congr 1
      omega

/-- Repeats let the columns shrink that no symbol is written for. -/
theorem cycleMarks_append {more : List Token} {period : Nat}
    (h : ∀ t ∈ more, t.tag.isContinuation = true) (length : Nat) :
    cycleMarks period (tokens ++ more) length = cycleMarks period tokens length := by
  induction tokens generalizing length with
  | nil => rw [List.nil_append, cycleMarks_of_continuations h, cycleMarks]
  | cons t tokens ih => rw [List.cons_append, cycleMarks, cycleMarks, ih]

end TimingDiagram
