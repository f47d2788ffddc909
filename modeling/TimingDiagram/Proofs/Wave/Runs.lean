import TimingDiagram.Proofs.Wave.Tiling

/-! Runs of pieces. Merging compares what has been merged so far with the next piece; on the
pieces of a signal this is the same as comparing each piece with the one right before it, so
the segments open where a piece does not join the piece before it. -/
namespace TimingDiagram

/-- What is seen of a cycle: how it is drawn, its level, its colour and, for a clock, the
symbol whose pulses it shows. -/
structure Look where
  kind : SegmentKind
  level : Option Level
  color : Int
  pulses : Option Tag
  deriving DecidableEq

namespace Segment

/-- What is seen of the cycles of a segment. -/
def look (s : Segment) : Look :=
  ⟨s.kind, s.level, s.color, if s.kind = .clock then s.tag else none⟩

/-- What a segment has from the piece it opens with: all but its length and its breaks. -/
def opening (s : Segment) : Segment := { s with cycles := 0, gaps := [] }

@[simp] theorem start_opening (s : Segment) : s.opening.start = s.start := rfl

@[simp] theorem label_opening (s : Segment) : s.opening.label = s.label := rfl

@[simp] theorem anchor_opening (s : Segment) : s.opening.anchor = s.anchor := rfl

@[simp] theorem continuation_opening (s : Segment) :
    s.opening.continuation = s.continuation := rfl

@[simp] theorem kind_opening (s : Segment) : s.opening.kind = s.kind := rfl

@[simp] theorem level_opening (s : Segment) : s.opening.level = s.level := rfl

@[simp] theorem color_opening (s : Segment) : s.opening.color = s.color := rfl

@[simp] theorem look_opening (s : Segment) : s.opening.look = s.look := rfl

/-- Whether a piece goes on as the piece before it: it looks the same, carries no anchor and,
as a box, repeats the one before. -/
def joins (left right : Segment) : Bool :=
  right.anchor.isNone && left.look = right.look && (right.kind ≠ .data || right.continuation)

/-- The pieces that do not go on as the piece before them. -/
def firstsFrom (before : Segment) : List Segment → List Segment
  | [] => []
  | s :: rest => if before.joins s then firstsFrom s rest else s :: firstsFrom s rest

/-- The first piece, and those that do not go on as the piece before them. -/
def firsts : List Segment → List Segment
  | [] => []
  | s :: rest => s :: firstsFrom s rest

/-- Whether a segment is a box that continues none. -/
def isFreshBox (s : Segment) : Bool := s.kind = .data && !s.continuation

/-- A continuation has no label of its own. -/
def Unlabelled (s : Segment) : Prop := s.continuation = true → s.label = none

variable {current before s : Segment} {segments rest : List Segment} {start stop length : Int}

theorem look_eq_iff {left right : Segment} :
    left.look = right.look ↔ left.kind = right.kind ∧ left.level = right.level ∧
      left.color = right.color ∧ (left.kind = .clock → left.tag = right.tag) := by
  simp only [look, Look.mk.injEq]
  constructor
  · rintro ⟨hKind, hLevel, hColor, hTag⟩
    refine ⟨hKind, hLevel, hColor, fun hClock => ?_⟩
    rwa [if_pos hClock, if_pos (hKind ▸ hClock)] at hTag
  · rintro ⟨hKind, hLevel, hColor, hTag⟩
    refine ⟨hKind, hLevel, hColor, ?_⟩
    rw [hKind] at hTag ⊢
    split_ifs with hClock
    · exact hTag hClock
    · rfl

/-- When a segment absorbs the next: that starts at its end, looks the same, carries no
anchor and, as a box, repeats it. -/
theorem absorbs_iff {left right : Segment} :
    left.absorbs right = true ↔ right.anchor = none ∧ left.stop = right.start ∧
      left.look = right.look ∧ (left.kind = .data →
        right.continuation = true ∧ (right.label = none ∨ right.label = left.label)) := by
  simp only [absorbs, look_eq_iff, Bool.and_eq_true, Bool.or_eq_true, decide_eq_true_eq,
    Option.isNone_iff_eq_none, ne_eq]
  grind

theorem joins_iff {left right : Segment} :
    left.joins right = true ↔ right.anchor = none ∧ left.look = right.look ∧
      (right.kind = .data → right.continuation = true) := by
  simp only [joins, Bool.and_eq_true, Bool.or_eq_true, decide_eq_true_eq,
    Option.isNone_iff_eq_none, ne_eq]
  grind

theorem joins_eq_false_iff {left right : Segment} :
    left.joins right = false ↔
      right.anchor ≠ none ∨ right.isFreshBox = true ∨ left.look ≠ right.look := by
  simp only [joins, isFreshBox, Bool.and_eq_true, Bool.and_eq_false_iff, Bool.or_eq_false_iff,
    decide_eq_true_eq, decide_eq_false_iff_not, Bool.not_eq_true', Option.isNone_eq_false_iff,
    Option.isSome_iff_ne_none, ne_eq, not_not]
  tauto

/-- On neighbours merging asks for what joining asks for. -/
theorem absorbs_eq_joins {left right : Segment} (hNext : left.stop = right.start)
    (hLabel : right.Unlabelled) : left.absorbs right = left.joins right := by
  rw [Bool.eq_iff_iff, absorbs_iff, joins_iff]
  constructor
  · rintro ⟨hAnchor, _, hLook, hData⟩
    exact ⟨hAnchor, hLook, fun h => (hData ((look_eq_iff.mp hLook).1.trans h)).1⟩
  · rintro ⟨hAnchor, hLook, hData⟩
    refine ⟨hAnchor, hNext, hLook, fun h => ?_⟩
    have hContinued := hData ((look_eq_iff.mp hLook).1.symm.trans h)
    exact ⟨hContinued, .inl (hLabel hContinued)⟩

theorem joins_congr {left other right : Segment} (h : left.look = other.look) :
    left.joins right = other.joins right := by
  rw [joins, joins, h]

@[simp] theorem look_merge (left right : Segment) : (left.merge right).look = left.look := rfl

@[simp] theorem opening_merge (left right : Segment) :
    (left.merge right).opening = left.opening := rfl

/-- The segments open where a piece does not join the one before it. What has been merged so
far looks like the last piece in it and ends where that piece does. -/
theorem map_opening_coalesceFrom (hLook : current.look = before.look)
    (hStop : current.stop = before.stop) (hTiles : Tiles before.stop stop rest)
    (hLabels : ∀ s ∈ rest, s.Unlabelled) :
    (coalesceFrom current rest).map opening =
      current.opening :: (firstsFrom before rest).map opening := by
  induction rest generalizing current before with
  | nil => rfl
  | cons s rest ih =>
      obtain ⟨hStart, hCycles, hRest⟩ := hTiles
      have hNext : current.stop = s.start := hStop.trans hStart.symm
      have hTail : ∀ s ∈ rest, s.Unlabelled := fun t ht => hLabels t (List.mem_cons_of_mem _ ht)
      have hSame : current.absorbs s = before.joins s :=
        (absorbs_eq_joins hNext (hLabels s (by simp))).trans (joins_congr hLook)
      rw [coalesceFrom, firstsFrom, hSame]
      split_ifs with hJoins
      · have hAbsorbed := (absorbs_iff.mp (hSame.trans hJoins)).2.2.1
        rw [ih (by simpa using hAbsorbed) (stop_merge hNext) hRest hTail, opening_merge]
      · rw [List.map_cons, List.map_cons, ih rfl rfl hRest hTail]

theorem map_opening_coalesce (hTiles : Tiles start stop segments)
    (hLabels : ∀ s ∈ segments, s.Unlabelled) :
    (coalesce segments).map opening = (firsts segments).map opening := by
  cases segments with
  | nil => rfl
  | cons s rest =>
      rw [coalesce, firsts, List.map_cons]
      exact map_opening_coalesceFrom rfl rfl hTiles.2.2 fun t ht =>
        hLabels t (List.mem_cons_of_mem _ ht)

theorem firstsFrom_sublist (before : Segment) (segments : List Segment) :
    (firstsFrom before segments).Sublist segments := by
  induction segments generalizing before with
  | nil => exact List.Sublist.refl _
  | cons s rest ih =>
      rw [firstsFrom]
      split_ifs
      · exact (ih s).cons s
      · exact (ih s).cons_cons s

theorem mem_of_mem_firsts (h : s ∈ firsts segments) : s ∈ segments := by
  cases segments with
  | nil => exact h
  | cons t rest => exact ((firstsFrom_sublist t rest).cons_cons t).subset h

/-- Pieces that join what is before them do not count for a function that ignores them. -/
theorem filterMap_firstsFrom {α : Type} {f : Segment → Option α}
    (h : ∀ left right : Segment, left.joins right = true → f right = none)
    (before : Segment) (segments : List Segment) :
    (firstsFrom before segments).filterMap f = segments.filterMap f := by
  induction segments generalizing before with
  | nil => rfl
  | cons s rest ih =>
      rw [firstsFrom]
      split_ifs with hJoins
      · rw [ih, List.filterMap_cons_none (h before s hJoins)]
      · rw [List.filterMap_cons, List.filterMap_cons, ih]

theorem filterMap_firsts {α : Type} {f : Segment → Option α}
    (h : ∀ left right : Segment, left.joins right = true → f right = none)
    (segments : List Segment) : (firsts segments).filterMap f = segments.filterMap f := by
  cases segments with
  | nil => rfl
  | cons s rest => rw [firsts, List.filterMap_cons, List.filterMap_cons, filterMap_firstsFrom h]

theorem mem_firstsFrom_iff {before s : Segment} {segments : List Segment} :
    s ∈ firstsFrom before segments ↔ ∃ (i : Nat) (left : Segment),
      (before :: segments)[i]? = some left ∧ segments[i]? = some s ∧ left.joins s = false := by
  induction segments generalizing before with
  | nil => simp [firstsFrom]
  | cons t rest ih =>
      rw [firstsFrom]
      constructor
      · intro h
        split_ifs at h with hJoins
        · obtain ⟨i, left, hLeft, hs, hBreak⟩ := ih.mp h
          exact ⟨i + 1, left, hLeft, hs, hBreak⟩
        · rcases List.mem_cons.mp h with rfl | h
          · exact ⟨0, before, rfl, rfl, by simpa using hJoins⟩
          · obtain ⟨i, left, hLeft, hs, hBreak⟩ := ih.mp h
            exact ⟨i + 1, left, hLeft, hs, hBreak⟩
      · rintro ⟨i, left, hLeft, hs, hBreak⟩
        cases i with
        | zero =>
            simp only [List.getElem?_cons_zero, Option.some.injEq] at hLeft hs
            rw [hLeft, hs, hBreak]
            simp
        | succ i =>
            have hMem : s ∈ firstsFrom t rest := ih.mpr ⟨i, left, hLeft, hs, hBreak⟩
            split_ifs
            · exact hMem
            · exact List.mem_cons_of_mem _ hMem

/-- A piece opens a run exactly when it is the first one or does not join the one before. -/
theorem mem_firsts_iff {segments : List Segment} {s : Segment} :
    s ∈ firsts segments ↔ segments[0]? = some s ∨
      ∃ (i : Nat) (left : Segment), segments[i]? = some left ∧ segments[i + 1]? = some s ∧
        left.joins s = false := by
  cases segments with
  | nil => simp [firsts]
  | cons t rest =>
      rw [firsts, List.mem_cons, mem_firstsFrom_iff, eq_comm]
      simp only [List.getElem?_cons_zero, List.getElem?_cons_succ, Option.some.injEq]

theorem firstsFrom_append_joined {before pad : Segment} {segments : List Segment}
    (h : ∀ last ∈ (before :: segments).getLast?, last.joins pad = true) :
    firstsFrom before (segments ++ [pad]) = firstsFrom before segments := by
  induction segments generalizing before with
  | nil => simpa [firstsFrom] using h
  | cons s rest ih =>
      rw [List.cons_append, firstsFrom, firstsFrom, ih (by simpa using h)]

theorem firsts_append_joined {pad : Segment} {segments : List Segment} (hNil : segments ≠ [])
    (h : ∀ last ∈ segments.getLast?, last.joins pad = true) :
    firsts (segments ++ [pad]) = firsts segments := by
  cases segments with
  | nil => exact absurd rfl hNil
  | cons s rest => rw [List.cons_append, firsts, firsts, firstsFrom_append_joined h]

theorem filter_firstsFrom_eq_nil {before : Segment} (hTiles : Tiles start stop segments)
    (h : length ≤ start) :
    ((firstsFrom before segments).filter fun s => s.start < length) = [] := by
  apply List.filter_eq_nil_iff.mpr
  intro s hs
  have := (hTiles.bounds s ((firstsFrom_sublist before segments).subset hs)).1
  simp only [decide_eq_true_eq]
  omega

theorem mem_clip (h : s ∈ clip length segments) :
    ∃ whole ∈ segments, s.opening = whole.opening ∧ s.stop ≤ whole.stop ∧ s.gaps ⊆ whole.gaps := by
  induction segments with
  | nil => cases h
  | cons t rest ih =>
      have hLater (h : s ∈ clip length rest) : ∃ whole ∈ t :: rest,
          s.opening = whole.opening ∧ s.stop ≤ whole.stop ∧ s.gaps ⊆ whole.gaps := by
        obtain ⟨whole, hMem, hCut⟩ := ih h
        exact ⟨whole, List.mem_cons_of_mem _ hMem, hCut⟩
      rw [clip] at h
      split_ifs at h with hOut hCut
      · cases h
      · rcases List.mem_cons.mp h with rfl | h
        · refine ⟨t, by simp, rfl, ?_, List.filter_sublist.subset⟩
          simp only [Segment.stop] at hCut ⊢
          omega
        · exact hLater h
      · rcases List.mem_cons.mp h with rfl | h
        · exact ⟨s, by simp, rfl, le_refl _, fun _ hg => hg⟩
        · exact hLater h

/-- Where clipping cuts a tiling, the runs are those that open before the cut. -/
theorem map_opening_firstsFrom_clip {before : Segment} (hTiles : Tiles start stop segments) :
    (firstsFrom before (clip length segments)).map opening =
      ((firstsFrom before segments).filter fun s => s.start < length).map opening := by
  induction segments generalizing before start with
  | nil => rfl
  | cons s rest ih =>
      obtain ⟨hStart, hCycles, hRest⟩ := id hTiles
      rw [clip]
      split_ifs with hOut hCut
      · rw [filter_firstsFrom_eq_nil hTiles (hStart ▸ hOut)]
        rfl
      · rw [hRest.clip_eq_nil hCut.le, firstsFrom, firstsFrom, firstsFrom]
        have hNone : ((firstsFrom s rest).filter fun s => s.start < length) = [] :=
          filter_firstsFrom_eq_nil hRest hCut.le
        change (if before.joins s then [] else _).map opening = _
        split_ifs
        · rw [hNone]
        · rw [List.filter_cons_of_pos (by simpa using hOut), hNone]
          rfl
      · rw [firstsFrom, firstsFrom]
        split_ifs
        · exact ih hRest
        · rw [List.filter_cons_of_pos (by simpa using hOut), List.map_cons, List.map_cons, ih hRest]

theorem map_opening_firsts_clip (hTiles : Tiles start stop segments) :
    (firsts (clip length segments)).map opening =
      ((firsts segments).filter fun s => s.start < length).map opening := by
  cases segments with
  | nil => rfl
  | cons s rest =>
      obtain ⟨hStart, hCycles, hRest⟩ := hTiles
      rw [clip, firsts]
      split_ifs with hOut hCut
      · rw [List.filter_cons_of_neg (by simpa using hOut), filter_firstsFrom_eq_nil hRest]
        · rfl
        · simp only [Segment.stop]
          omega
      · rw [hRest.clip_eq_nil hCut.le, List.filter_cons_of_pos (by simpa using hOut),
          filter_firstsFrom_eq_nil hRest hCut.le]
        rfl
      · rw [firsts, List.filter_cons_of_pos (by simpa using hOut), List.map_cons, List.map_cons,
          map_opening_firstsFrom_clip hRest]

end Segment

namespace Token

/-- Whether a token takes a label from the list of its signal. -/
def takesLabel (t : Token) : Bool := t.tag = .data && t.text.isNone

/-- The label of a data token: the text written after it, or else the next label of the list
that no token before it has taken, as far as there is one. -/
def labelOf (tokens : List Token) (labels : List String) (t : Token) : Option String :=
  t.text.or labels[tokens.countP fun before => before.index < t.index && before.takesLabel]?

theorem Numbered.le_index {first : Nat} {tokens : List Token} (h : Numbered first tokens) :
    ∀ t ∈ tokens, first ≤ t.index := by
  intro t ht
  obtain ⟨i, hi⟩ := List.mem_iff_getElem?.mp ht
  have := h.index_getElem? hi
  omega

/-- A token starts before its wave ends. -/
theorem Numbered.index_mul_lt {tokens : List Token} (h : Numbered 0 tokens) {period : Int}
    (hPeriod : 1 ≤ period) {t : Token} (ht : t ∈ tokens) :
    t.index * period < tokens.length * period := by
  obtain ⟨i, hi⟩ := List.mem_iff_getElem?.mp ht
  have hIndex := h.index_getElem? hi
  obtain ⟨hLt, _⟩ := List.getElem?_eq_some_iff.mp hi
  exact mul_lt_mul_of_pos_right (by omega) (by omega)

theorem labelOf_cons_self {first : Nat} {t : Token} {tokens : List Token}
    (h : Numbered first (t :: tokens)) (labels : List String) :
    labelOf (t :: tokens) labels t = t.text.or labels.head? := by
  have hIndex := (numbered_cons.mp h).1
  have hCount : (t :: tokens).countP (fun u => u.index < t.index && u.takesLabel) = 0 :=
    List.countP_eq_zero.mpr fun u hu => by
      have := h.le_index u hu
      simp only [Bool.and_eq_true, decide_eq_true_eq]
      omega
  rw [labelOf, hCount, List.head?_eq_getElem?]

theorem labelOf_cons {t u : Token} (h : t.index < u.index) (tokens : List Token)
    (labels : List String) :
    labelOf (t :: tokens) labels u =
      labelOf tokens (if t.takesLabel then labels.tail else labels) u := by
  rw [labelOf, labelOf, List.countP_cons]
  by_cases hTakes : t.takesLabel = true
  · simp [h, hTakes]
  · simp [hTakes]

/-- Without labels in brackets the data tokens take the labels of the list in their order. -/
theorem labelOf_eq_getElem? {first : Nat} {tokens : List Token} (h : Numbered first tokens)
    (hPlain : ∀ t ∈ tokens, t.text = none) {labels : List String} {k : Nat} {u : Token}
    (hu : (tokens.filter fun t => t.tag = .data)[k]? = some u) :
    labelOf tokens labels u = labels[k]? := by
  induction tokens generalizing first labels k with
  | nil => cases hu
  | cons t tokens ih =>
      obtain ⟨hIndex, hRest⟩ := numbered_cons.mp h
      obtain ⟨hText, hTexts⟩ := List.forall_mem_cons.mp hPlain
      have hLater {j : Nat} (hu : (tokens.filter fun t => t.tag = .data)[j]? = some u) :
          labelOf (t :: tokens) labels u = (if t.takesLabel then labels.tail else labels)[j]? := by
        have := hRest.le_index u (List.mem_of_mem_filter (List.mem_of_getElem? hu))
        rw [labelOf_cons (by omega), ih hRest hTexts hu]
      by_cases hData : t.tag = .data
      · have hTakes : t.takesLabel = true := by simp [takesLabel, hData, hText]
        rw [List.filter_cons_of_pos (by simpa using hData)] at hu
        cases k with
        | zero =>
            obtain rfl : t = u := Option.some.inj hu
            rw [labelOf_cons_self h, hText, Option.none_or, List.head?_eq_getElem?]
        | succ k =>
            rw [hLater hu, hTakes, if_pos rfl, List.getElem?_tail]
      · have hTakes : t.takesLabel = false := by simp [takesLabel, hData]
        rw [List.filter_cons_of_neg (by simpa using hData)] at hu
        rw [hLater hu, hTakes, if_neg Bool.false_ne_true]

end Token

namespace Segment

variable {period : Int} {data : List String} {signal : String} {tokens : List Token}

/-- The piece of a token of a signal. -/
def pieceOf (period : Int) (tokens : List Token) (labels : List String) (t : Token) : Segment :=
  ofToken period (if t.tag = .data then t.labelOf tokens labels else none) t

theorem pieces_eq_map {first : Nat} (h : Token.Numbered first tokens) (labels : List String) :
    pieces period tokens labels = tokens.map (pieceOf period tokens labels) := by
  induction tokens generalizing first labels with
  | nil => rfl
  | cons t tokens ih =>
      obtain ⟨hIndex, hRest⟩ := Token.numbered_cons.mp h
      rw [pieces_cons, List.map_cons, ih hRest, pieceOf, Token.labelOf_cons_self h, nextLabel]
      congr 1
      apply List.map_congr_left
      intro u hu
      have hLater : t.index < u.index := by
        have := hRest.le_index u hu
        omega
      have hAfter : labelsAfter t labels = if t.takesLabel then labels.tail else labels := by
        simp [labelsAfter, Token.takesLabel]
      rw [pieceOf, pieceOf, Token.labelOf_cons hLater, hAfter]

theorem kind_eq_data_iff (tag : Tag) : SegmentKind.ofTag tag = .data ↔ tag = .data := by
  cases tag <;> decide

theorem isFreshBox_pieceOf {t : Token} (h : t.tag.isContinuation = false → t.resolved = t.tag) :
    (pieceOf period tokens data t).isFreshBox = decide (t.tag = .data) := by
  have hKind : (pieceOf period tokens data t).kind = .ofTag t.resolved := rfl
  have hContinued : (pieceOf period tokens data t).continuation = t.tag.isContinuation := rfl
  rw [Bool.eq_iff_iff, isFreshBox, hKind, hContinued]
  simp only [Bool.and_eq_true, decide_eq_true_eq, kind_eq_data_iff, Bool.not_eq_true']
  constructor
  · rintro ⟨hData, hTag⟩
    exact (h hTag).symm.trans hData
  · rintro hTag
    have hExplicit : t.tag.isContinuation = false := hTag ▸ rfl
    exact ⟨(h hExplicit).trans hTag, hExplicit⟩

theorem unlabelled_pieces {first : Nat} (h : Token.Numbered first tokens) (period : Int)
    (labels : List String) :
    ∀ s ∈ pieces period tokens labels, s.Unlabelled := by
  rw [pieces_eq_map h]
  intro s hs
  obtain ⟨t, _, rfl⟩ := List.mem_map.mp hs
  intro hContinued
  have : t.tag ≠ .data := by
    rintro hData
    simp [pieceOf, ofToken, hData, Tag.isContinuation] at hContinued
  simp [pieceOf, ofToken, this]

theorem unlabelled_padding (total length : Int) (last : Option Segment) :
    (padding total length last).Unlabelled := by
  cases last <;> exact fun _ => rfl

theorem joins_padding {last : Segment} (total length : Int) :
    last.joins (padding total length (some last)) = true :=
  joins_iff.mpr ⟨rfl, look_eq_iff.mpr ⟨rfl, rfl, rfl, fun _ => rfl⟩, fun _ => rfl⟩

/-- The segments of a signal open with the pieces of its tokens that do not join the piece
before them, as far as these start before its length. -/
theorem map_opening_resolve {declared : Option Int} {segments : List Segment}
    (hTokens : Token.Numbered 0 tokens) (hNil : tokens ≠ []) (hPeriod : 1 ≤ period)
    (h : resolve tokens period data declared signal = .ok segments) :
    segments.map opening = ((firsts (pieces period tokens data)).filter fun s =>
      s.start < declared.getD (tokens.length * period)).map opening := by
  obtain ⟨ps, hFitted, rfl⟩ := resolve_eq_ok_iff.mp h
  have hTiles := tiles_pieces_zero hTokens hPeriod data
  have hLabels := unlabelled_pieces hTokens period data
  have hWhole {length : Int} (hLength : tokens.length * period ≤ length) :
      ((firsts (pieces period tokens data)).filter fun s => s.start < length) =
        firsts (pieces period tokens data) := by
    apply List.filter_eq_self.mpr
    intro s hs
    obtain ⟨_, hCycles, hStop⟩ := hTiles.bounds s (mem_of_mem_firsts hs)
    simp only [Segment.stop] at hStop
    simp only [decide_eq_true_eq]
    omega
  rcases fitted_cases hFitted with ⟨hEq, rfl⟩ | ⟨hLong, rfl⟩ | ⟨hShort, _, rfl⟩
  · rw [hWhole hEq.ge, map_opening_coalesce hTiles hLabels]
  · have hPieces : pieces period tokens data ≠ [] := by
      rw [pieces_eq_map hTokens]
      exact fun h => hNil (List.map_eq_nil_iff.mp h)
    have hPadded := tiles_fitted hTokens hPeriod (hTiles.le.trans hLong.le) hFitted
    rw [map_opening_coalesce hPadded, hWhole hLong.le, firsts_append_joined hPieces]
    · intro last hLast
      rw [Option.mem_def.mp hLast]
      exact joins_padding _ _
    · intro s hs
      rcases List.mem_append.mp hs with hs | hs
      · exact hLabels s hs
      · rw [List.mem_singleton.mp hs]
        exact unlabelled_padding _ _ _
  · rw [← map_opening_firsts_clip hTiles]
    rcases lt_or_ge (declared.getD (tokens.length * period)) 0 with hNegative | hLength
    · rw [hTiles.clip_eq_nil hNegative.le]
      rfl
    · apply map_opening_coalesce (hTiles.clip hLength hShort.le)
      intro s hs
      obtain ⟨whole, hMem, hOpening, _⟩ := mem_clip hs
      change s.opening.Unlabelled
      rw [hOpening]
      exact hLabels whole hMem

end Segment
end TimingDiagram
