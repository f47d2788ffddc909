import Mathlib.Data.List.Chain
import Mathlib.Tactic.Linarith
import Mathlib.Tactic.Ring
import TimingDiagram.Proofs.Document.Compiled
import TimingDiagram.Proofs.Wave.Lexing

/-! Segments tile the cycles of their signal. The pieces of its tokens do, padding and
clipping move the end of the tiling, and merging joins neighbours without moving anything. -/
namespace TimingDiagram
namespace Segment

/-- Segments that are not empty and follow one another from `start` to `stop`. -/
def Tiles : Int → Int → List Segment → Prop
  | start, stop, [] => start = stop
  | start, stop, s :: rest => s.start = start ∧ 1 ≤ s.cycles ∧ Tiles s.stop stop rest

/-- A partition of the cycles below `length` into segments in order. -/
structure Partition (length : Int) (segments : List Segment) : Prop where
  empty_iff : segments = [] ↔ length = 0
  first : ∀ s ∈ segments.head?, s.start = 0
  positive : ∀ s ∈ segments, 1 ≤ s.cycles
  adjacent : segments.IsChain fun left right => right.start = left.stop
  last : ∀ s ∈ segments.getLast?, s.stop = length
  total : totalCycles segments = length
  /-- Every cycle lies in one segment and in no other. -/
  cover : ∀ c, 0 ≤ c → c < length → ∃! s, s ∈ segments ∧ s.start ≤ c ∧ c < s.stop

variable {start stop middle : Int} {s : Segment} {segments : List Segment}

@[simp] theorem tiles_nil : Tiles start stop [] ↔ start = stop := Iff.rfl

@[simp] theorem tiles_cons :
    Tiles start stop (s :: segments) ↔
      s.start = start ∧ 1 ≤ s.cycles ∧ Tiles s.stop stop segments := Iff.rfl

theorem Tiles.le (h : Tiles start stop segments) : start ≤ stop := by
  induction segments generalizing start with
  | nil => exact h.le
  | cons s rest ih =>
      obtain ⟨hStart, hCycles, hRest⟩ := h
      have := ih hRest
      simp only [Segment.stop] at this
      omega

theorem Tiles.append {more : List Segment} (h : Tiles start middle segments)
    (hMore : Tiles middle stop more) : Tiles start stop (segments ++ more) := by
  induction segments generalizing start with
  | nil =>
      cases h
      exact hMore
  | cons s rest ih => exact ⟨h.1, h.2.1, ih h.2.2⟩

theorem Tiles.bounds (h : Tiles start stop segments) :
    ∀ s ∈ segments, start ≤ s.start ∧ 1 ≤ s.cycles ∧ s.stop ≤ stop := by
  induction segments generalizing start with
  | nil => simp
  | cons s rest ih =>
      obtain ⟨rfl, hCycles, hRest⟩ := h
      have hStop : s.start < s.stop := by simp only [Segment.stop]; omega
      intro t ht
      rcases List.mem_cons.mp ht with rfl | ht
      · exact ⟨le_refl _, hCycles, hRest.le⟩
      · obtain ⟨hStart, hRest⟩ := ih hRest t ht
        exact ⟨by omega, hRest⟩

theorem Tiles.totalCycles (h : Tiles start stop segments) :
    totalCycles segments = stop - start := by
  induction segments generalizing start with
  | nil =>
      cases h
      simp [Segment.totalCycles]
  | cons s rest ih =>
      obtain ⟨rfl, _, hRest⟩ := h
      have := ih hRest
      simp only [Segment.totalCycles, List.foldr_cons, Segment.stop] at this ⊢
      omega

theorem Tiles.last (h : Tiles start stop segments) : ∀ s ∈ segments.getLast?, s.stop = stop := by
  induction segments generalizing start with
  | nil => simp
  | cons s rest ih =>
      obtain ⟨_, _, hRest⟩ := h
      cases rest with
      | nil => simpa using hRest
      | cons next rest => simpa using ih hRest

theorem Tiles.isChain (h : Tiles start stop segments) :
    segments.IsChain fun left right => right.start = left.stop := by
  induction segments generalizing start with
  | nil => simp
  | cons s rest ih =>
      obtain ⟨_, _, hRest⟩ := h
      cases rest with
      | nil => simp
      | cons next rest => exact List.isChain_cons_cons.mpr ⟨hRest.1, ih hRest⟩

/-- A segment of a tiling ends where the next one starts, or with the tiling. -/
theorem Tiles.stop_cases (h : Tiles start stop segments) :
    ∀ s ∈ segments, s.stop = stop ∨ ∃ next ∈ segments, next.start = s.stop := by
  induction segments generalizing start with
  | nil => simp
  | cons s rest ih =>
      obtain ⟨_, _, hRest⟩ := h
      intro t ht
      rcases List.mem_cons.mp ht with rfl | ht
      · cases rest with
        | nil => exact .inl hRest
        | cons next rest => exact .inr ⟨next, by simp, hRest.1⟩
      · refine (ih hRest t ht).imp_right ?_
        rintro ⟨next, hNext, hStart⟩
        exact ⟨next, List.mem_cons_of_mem _ hNext, hStart⟩

/-- Every position of a tiling lies in one of its segments and in no other. -/
theorem Tiles.existsUnique (h : Tiles start stop segments) {c : Int} (hStart : start ≤ c)
    (hStop : c < stop) : ∃! s, s ∈ segments ∧ s.start ≤ c ∧ c < s.stop := by
  induction segments generalizing start with
  | nil =>
      cases h
      omega
  | cons s rest ih =>
      obtain ⟨rfl, _, hRest⟩ := h
      by_cases hc : c < s.stop
      · refine ⟨s, ⟨by simp, hStart, hc⟩, fun t ht => ?_⟩
        obtain ⟨hMem, hFrom, _⟩ := ht
        rcases List.mem_cons.mp hMem with rfl | hMem
        · rfl
        · have := (hRest.bounds t hMem).1
          omega
      · obtain ⟨t, ⟨hMem, hCover⟩, hUnique⟩ := ih hRest (by omega)
        refine ⟨t, ⟨List.mem_cons_of_mem _ hMem, hCover⟩, fun u hu => ?_⟩
        obtain ⟨hu, hFrom, hTo⟩ := hu
        rcases List.mem_cons.mp hu with rfl | hu
        · omega
        · exact hUnique u ⟨hu, hFrom, hTo⟩

theorem Tiles.partition (h : Tiles 0 stop segments) : Partition stop segments where
  empty_iff := by
    cases segments with
    | nil => simpa using h.symm
    | cons s rest =>
        have := h.bounds s (by simp)
        simp only [Segment.stop, reduceCtorEq, false_iff] at this ⊢
        omega
  first := by
    cases segments with
    | nil => simp
    | cons s rest => simpa using h.1
  positive := fun s hs => (h.bounds s hs).2.1
  adjacent := h.isChain
  last := h.last
  total := by rw [h.totalCycles, sub_zero]
  cover := fun _ => h.existsUnique

/-- The label that a token takes when some labels are left. -/
def nextLabel (t : Token) (labels : List String) : Option String :=
  if t.tag = .data then t.text.or labels.head? else none

/-- The labels that a token leaves. -/
def labelsAfter (t : Token) (labels : List String) : List String :=
  if t.tag = .data ∧ t.text = none then labels.tail else labels

theorem pieces_cons (period : Int) (t : Token) (tokens : List Token) (labels : List String) :
    pieces period (t :: tokens) labels =
      ofToken period (nextLabel t labels) t :: pieces period tokens (labelsAfter t labels) := by
  rw [pieces, nextLabel, labelsAfter]
  by_cases hData : t.tag = .data
  · cases hText : t.text <;> simp [hData, Option.or]
  · simp [hData]

theorem tiles_pieces {period : Int} (hPeriod : 1 ≤ period) {first : Nat} {tokens : List Token}
    (h : Token.Numbered first tokens) (labels : List String) :
    Tiles (first * period) ((first + tokens.length : Nat) * period)
      (pieces period tokens labels) := by
  induction tokens generalizing first labels with
  | nil => simp [pieces]
  | cons t tokens ih =>
      obtain ⟨hIndex, hRest⟩ := Token.numbered_cons.mp h
      rw [pieces_cons]
      have hStop : (ofToken period (nextLabel t labels) t).stop =
          ((first + 1 : Nat) : Int) * period := by
        simp only [ofToken, Segment.stop, hIndex]
        push_cast
        ring
      refine ⟨by simp [ofToken, hIndex], hPeriod, ?_⟩
      rw [hStop, List.length_cons, Nat.add_comm tokens.length, ← Nat.add_assoc]
      exact ih hRest _

theorem Tiles.clip_eq_nil (h : Tiles start stop segments) {length : Int} (hStart : length ≤ start) :
    clip length segments = [] := by
  cases segments with
  | nil => rfl
  | cons s rest => rw [Segment.clip, if_pos (h.1 ▸ hStart)]

theorem clip_append (hTiles : Tiles start middle segments) {length : Int} (hLength : middle ≤ length)
    (more : List Segment) : clip length (segments ++ more) = segments ++ clip length more := by
  induction segments generalizing start with
  | nil => rfl
  | cons s rest ih =>
      obtain ⟨hCycles, hStop⟩ := (hTiles.bounds s (by simp)).2
      have hStart : s.start < s.stop := by simp only [Segment.stop]; omega
      rw [List.cons_append, clip, if_neg (by omega), if_neg (by omega), ih hTiles.2.2,
        List.cons_append]

/-- A cut past the end takes nothing away. -/
theorem Tiles.clip_eq_self (h : Tiles start stop segments) {length : Int} (hStop : stop ≤ length) :
    Segment.clip length segments = segments := by
  have hWhole := clip_append h hStop []
  rwa [List.append_nil, Segment.clip, List.append_nil] at hWhole

/-- Clipping moves the end of a tiling. -/
theorem Tiles.clip (h : Tiles start stop segments) {length : Int} (hStart : start ≤ length)
    (hStop : length ≤ stop) : Tiles start length (clip length segments) := by
  induction segments generalizing start with
  | nil =>
      cases h
      exact le_antisymm hStart hStop
  | cons s rest ih =>
      obtain ⟨rfl, hCycles, hRest⟩ := h
      rw [Segment.clip]
      split_ifs with hOut hCut
      · exact le_antisymm hStart hOut
      · rw [hRest.clip_eq_nil hCut.le]
        refine ⟨rfl, by simp only; omega, ?_⟩
        simp [Segment.stop]
      · exact ⟨rfl, hCycles, ih hRest (by omega)⟩

theorem Tiles.merge {current : Segment} (h : Tiles start stop (current :: s :: segments)) :
    Tiles start stop (current.merge s :: segments) := by
  obtain ⟨hStart, hCycles, hNext, hMore, hRest⟩ := h
  refine ⟨hStart, by simp only [Segment.merge]; omega, ?_⟩
  rwa [stop_merge hNext.symm]

theorem tiles_coalesceFrom {current : Segment} {rest : List Segment}
    (h : Tiles start stop (current :: rest)) : Tiles start stop (coalesceFrom current rest) := by
  induction rest generalizing current start with
  | nil => exact h
  | cons s rest ih =>
      rw [coalesceFrom]
      split_ifs
      · exact ih h.merge
      · exact ⟨h.1, h.2.1, ih h.2.2⟩

theorem Tiles.coalesce (h : Tiles start stop segments) : Tiles start stop (coalesce segments) := by
  cases segments with
  | nil => exact h
  | cons s rest => exact tiles_coalesceFrom h

variable {tokens : List Token} {period : Int} {data : List String} {declared : Option Int}
  {signal : String}

/-- What fitting does: nothing where the declared length is that of the tokens, padding where
it is larger, and clipping where it is smaller and no anchor is lost. -/
theorem fitted_cases {ps : List Segment} (h : fitted tokens period data declared signal = .ok ps) :
    let total := tokens.length * period
    let length := declared.getD total
    (length = total ∧ ps = pieces period tokens data) ∨
      (total < length ∧ ps = pieces period tokens data ++
        [padding total length (pieces period tokens data).getLast?]) ∨
      (length < total ∧ firstClipped period length tokens = none ∧
        ps = Segment.clip length (pieces period tokens data)) := by
  cases declared with
  | none =>
      cases h
      exact .inl ⟨rfl, rfl⟩
  | some length =>
      simp only [fitted] at h
      simp only [Option.getD_some]
      split_ifs at h with hLong hShort
      · cases h
        exact .inr (.inl ⟨hLong, rfl⟩)
      · split at h
        · cases h
        · rename_i hKept
          cases h
          exact .inr (.inr ⟨hShort, hKept, rfl⟩)
      · cases h
        exact .inl ⟨le_antisymm (not_lt.mp hLong) (not_lt.mp hShort), rfl⟩

theorem resolve_eq_ok_iff :
    resolve tokens period data declared signal = .ok segments ↔
      ∃ ps, fitted tokens period data declared signal = .ok ps ∧ Segment.coalesce ps = segments := by
  rw [resolve]
  cases fitted tokens period data declared signal with
  | error e => simp [Except.map]
  | ok ps => simp [Except.map]

theorem tiles_pieces_zero (hTokens : Token.Numbered 0 tokens) (hPeriod : 1 ≤ period)
    (data : List String) :
    Tiles 0 (tokens.length * period) (pieces period tokens data) := by
  simpa using tiles_pieces hPeriod hTokens data

theorem tiles_fitted {ps : List Segment} (hTokens : Token.Numbered 0 tokens)
    (hPeriod : 1 ≤ period) (hLength : 0 ≤ declared.getD (tokens.length * period))
    (h : fitted tokens period data declared signal = .ok ps) :
    Tiles 0 (declared.getD (tokens.length * period)) ps := by
  have hPieces := tiles_pieces_zero hTokens hPeriod data
  rcases fitted_cases h with ⟨hEq, rfl⟩ | ⟨hLong, rfl⟩ | ⟨hShort, _, rfl⟩
  · rwa [hEq]
  · apply hPieces.append
    cases hLast : (pieces period tokens data).getLast? with
    | some last =>
        refine ⟨rfl, ?_, ?_⟩ <;> simp only [padding, tiles_nil, Segment.stop] <;> omega
    | none =>
        rw [List.getLast?_eq_none_iff] at hLast
        rw [hLast] at hPieces
        simp only [padding, tiles_cons, tiles_nil, Segment.stop] at hPieces ⊢
        omega
  · exact hPieces.clip hLength hShort.le

/-- Merging keeps the tiling that padding or clipping gives. -/
theorem tiles_resolve (hTokens : Token.Numbered 0 tokens) (hPeriod : 1 ≤ period)
    (hLength : 0 ≤ declared.getD (tokens.length * period))
    (h : resolve tokens period data declared signal = .ok segments) :
    Tiles 0 (declared.getD (tokens.length * period)) segments := by
  obtain ⟨ps, hFitted, rfl⟩ := resolve_eq_ok_iff.mp h
  exact (tiles_fitted hTokens hPeriod hLength hFitted).coalesce

end Segment

theorem tiles_of_compile {K : Type} {s : Signal K} {c : Compiled K} (hPeriod : 1 ≤ s.period)
    (h : s.compile.outcome = .ok c) : Segment.Tiles 0 c.length c.segments := by
  obtain ⟨_, hTokens, hSegments, _⟩ := Signal.of_compile h
  exact Segment.tiles_resolve (lex_numbered hTokens) (by exact_mod_cast hPeriod)
    (by exact Int.natCast_nonneg _) hSegments

/-- The segments of a compiled signal partition its cycles: the declared ones, or those of
its tokens. This is so whether the tokens are padded, clipped, used as they are or absent. -/
theorem compile_partition {K : Type} {s : Signal K} {c : Compiled K} (hPeriod : 1 ≤ s.period)
    (h : s.compile.outcome = .ok c) :
    c.length = s.cycles.getD (c.tokens.length * s.period) ∧
      Segment.Partition c.length c.segments := by
  obtain ⟨_, hTokens, hSegments, hLength⟩ := Signal.of_compile h
  have hTiles := Segment.tiles_resolve (lex_numbered hTokens) (by exact_mod_cast hPeriod)
    (by exact Int.natCast_nonneg _) hSegments
  exact ⟨hLength, hTiles.partition⟩

set_option maxRecDepth 10000 in
/-- The cut falls into the last of three symbols. -/
theorem compile_partition_clipped :
    let s : Signal Int := { name := "a", wave := "01x", period := 2, phase := 0, cycles := some 5 }
    1 ≤ s.period ∧ ∃ c, s.compile.outcome = .ok c ∧ c.length = 5 ∧
      Segment.Partition 5 c.segments := by
  intro s
  have hPeriod : 1 ≤ s.period := by decide
  obtain ⟨c, hCompile⟩ : ∃ c, s.compile.outcome = .ok c := by
    have hTokens : lex s.wave s.node s.name none = .ok
        [⟨0, '0', .low, .low, none, 0, none, none⟩,
          ⟨1, '1', .high, .high, some .low, 0, none, none⟩,
          ⟨2, 'x', .dontCare, .dontCare, some .high, 0, none, none⟩] := by cbv
    rw [Signal.outcome_compile, hTokens]
    exact ⟨_, rfl⟩
  obtain ⟨hLength, hPartition⟩ := compile_partition hPeriod hCompile
  have hFive : c.length = 5 := hLength
  exact ⟨hPeriod, c, hCompile, hFive, by simpa [hFive] using hPartition⟩

end TimingDiagram
