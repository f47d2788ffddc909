import TimingDiagram.Document.Basic
import TimingDiagram.Proofs.Document.Walk
import TimingDiagram.Proofs.Edge.Registry
import TimingDiagram.Proofs.Wave.Attachments

/-! What a document has to satisfy to be drawn, and how it can fail to. The wave of every signal
is spelled by glyphs and starts with no repeat, no anchor lies past the wave or past the declared
number of cycles, and no two anchors share a name. The faults of a signal are looked for in the
order in which they are listed. -/
namespace TimingDiagram

open Glyph

namespace Signal

variable {K : Type} {s : Signal K} {gs : List Glyph} {e : Error}

/-- The wave of a signal is written in some glyphs. -/
structure SpelledBy (s : Signal K) (gs : List Glyph) : Prop where
  valid : ∀ g ∈ gs, g.Valid
  wave : s.wave.toList = spell gs

/-- A declared number of cycles that cuts some symbols off. -/
def CutAt (s : Signal K) (count length : Nat) : Prop :=
  s.cycles = some length ∧ length < count * s.period

/-- A signal that can be compiled. -/
def Sound (s : Signal K) : Prop :=
  ∃ gs, s.SpelledBy gs ∧ (∀ g ∈ gs.head?, g.symbol ≠ '.') ∧ s.node.EndsAt gs.length ∧
    ∀ length, s.CutAt gs.length length →
      ∀ i < gs.length, s.node.anchorAt i ≠ none → i * s.period < length

/-- The faults of a signal that cannot be compiled: a place where its wave is no glyph, the
first anchor past its symbols, a repeat at its start, and the first anchor past its cycles.
A fault counts where the faults before it are absent. -/
inductive Offence (s : Signal K) : Error → Prop where
  | symbol {gs : List Glyph} {fault : GlyphFault} (wave : BreaksAfter s.wave.toList gs fault) :
      Offence s (.invalidSymbol (toString fault.symbol) fault.reason ⟨s.name, some gs.length⟩)
  | pastWave {gs : List Glyph} {i : Nat} {name : String} (wave : s.SpelledBy gs)
      (past : gs.length ≤ i) (anchor : s.node.anchorAt i = some name)
      (first : ∀ j, gs.length ≤ j → j < i → s.node.anchorAt j = none) :
      Offence s (.malformed (.anchorPastWave name) ⟨s.name, some i⟩)
  | dangling {gs : List Glyph} {g : Glyph} (wave : s.SpelledBy gs)
      (anchors : s.node.EndsAt gs.length) (start : gs.head? = some g) (point : g.symbol = '.') :
      Offence s (.danglingRepeat ⟨s.name, some 0⟩)
  | pastCycles {gs : List Glyph} {length i : Nat} {name : String} (wave : s.SpelledBy gs)
      (anchors : s.node.EndsAt gs.length) (start : ∀ g ∈ gs.head?, g.symbol ≠ '.')
      (cut : s.CutAt gs.length length) (inside : i < gs.length)
      (anchor : s.node.anchorAt i = some name) (past : length ≤ i * s.period)
      (first : ∀ j < i, s.node.anchorAt j ≠ none → j * s.period < length) :
      Offence s (.malformed (.anchorPastCycles name) ⟨s.name, some i⟩)

/-- The least place of an anchor among some places that hold one. -/
theorem exists_first_anchor {p : Nat → Prop} (h : ∃ i, p i ∧ s.node.anchorAt i ≠ none) :
    ∃ i name, p i ∧ s.node.anchorAt i = some name ∧
      ∀ j < i, p j → s.node.anchorAt j = none := by
  classical
  obtain ⟨hPlace, hAnchor⟩ := Nat.find_spec h
  obtain ⟨name, hName⟩ := Option.ne_none_iff_exists'.mp hAnchor
  refine ⟨Nat.find h, name, hPlace, hName, fun j hj hp => ?_⟩
  by_contra hNone
  exact Nat.find_min h hj ⟨hp, hNone⟩

theorem sound_or_offence (s : Signal K) : s.Sound ∨ ∃ e, s.Offence e := by
  rcases glyphs_cases s.wave.toList with ⟨gs, _, hValid, hSpell⟩ | ⟨gs, fault, _, hBreak⟩
  · have hWave : s.SpelledBy gs := ⟨hValid, hSpell⟩
    by_cases hEnds : s.node.EndsAt gs.length
    · by_cases hStart : ∀ g ∈ gs.head?, g.symbol ≠ '.'
      · by_cases hKept : ∀ length, s.CutAt gs.length length →
            ∀ i < gs.length, s.node.anchorAt i ≠ none → i * s.period < length
        · exact .inl ⟨gs, hWave, hStart, hEnds, hKept⟩
        · push Not at hKept
          obtain ⟨length, hCut, i, hi, hAnchor, hPast⟩ := hKept
          obtain ⟨k, name, ⟨hk, hLate⟩, hName, hFirst⟩ := exists_first_anchor
            (p := fun i => i < gs.length ∧ length ≤ i * s.period) ⟨i, ⟨hi, hPast⟩, hAnchor⟩
          refine .inr ⟨_, .pastCycles hWave hEnds hStart hCut hk hName hLate fun j hj hSome => ?_⟩
          by_contra hNot
          exact hSome (hFirst j hj ⟨hj.trans hk, not_lt.mp hNot⟩)
      · push Not at hStart
        obtain ⟨g, hHead, hPoint⟩ := hStart
        exact .inr ⟨_, .dangling hWave hEnds hHead hPoint⟩
    · simp only [NodeSpec.EndsAt, not_forall] at hEnds
      obtain ⟨i, hi, hAnchor⟩ := hEnds
      obtain ⟨k, name, hk, hName, hFirst⟩ :=
        exists_first_anchor (p := fun i => gs.length ≤ i) ⟨i, hi, hAnchor⟩
      exact .inr ⟨_, .pastWave hWave hk hName fun j hj hLt => hFirst j hLt hj⟩
  · exact .inr ⟨_, .symbol hBreak⟩

theorem exists_tokens (hWave : s.SpelledBy gs) (hEnds : s.node.EndsAt gs.length)
    (hStart : ∀ g ∈ gs.head?, g.symbol ≠ '.') :
    ∃ tokens, lex s.wave s.node s.name none = .ok tokens ∧ tokens.length = gs.length := by
  obtain ⟨tokens, hTokens⟩ : ∃ tokens, lex s.wave s.node s.name none = .ok tokens :=
    lex_of_start hWave.valid hWave.wave hEnds fun _ => hStart
  exact ⟨tokens, hTokens, lex_length hTokens hWave.valid hWave.wave⟩

theorem firstClipped_of_first {tokens : List Token} {length i : Nat} {name : String}
    (hTokens : lex s.wave s.node s.name none = .ok tokens) (hInside : i < tokens.length)
    (hAnchor : s.node.anchorAt i = some name) (hPast : length ≤ i * s.period)
    (hFirst : ∀ j < i, s.node.anchorAt j ≠ none → j * s.period < length) :
    ∃ t, t.index = i ∧ Segment.firstClipped s.period length tokens = some (t, name) := by
  obtain ⟨hIndex, hName⟩ := lex_getElem? hTokens (List.getElem?_eq_getElem hInside)
  refine ⟨tokens[i], hIndex, Segment.firstClipped_eq_some_iff.mpr ?_⟩
  refine ⟨tokens.take i, tokens.drop (i + 1), ?_, fun t ht hSome => ?_, hName.trans hAnchor, ?_⟩
  · rw [List.getElem_cons_drop, List.take_append_drop]
  · obtain ⟨j, hj⟩ := List.mem_iff_getElem?.mp ht
    rw [List.getElem?_take] at hj
    split_ifs at hj with hBefore
    obtain ⟨hNumber, hOwn⟩ := lex_getElem? hTokens hj
    rw [hNumber]
    exact_mod_cast hFirst j hBefore (hOwn ▸ hSome)
  · simp only [hIndex]
    exact_mod_cast hPast

theorem compile_of_offence (h : s.Offence e) : s.compile.outcome = .error e := by
  rw [outcome_compile]
  cases h with
  | symbol hWave => rw [lex_of_breaksAfter hWave, error_bind]
  | @pastWave gs i name hWave hPast hAnchor hFirst =>
      have hAlign : s.node.align gs.length s.name =
          .error (.malformed (.anchorPastWave name) ⟨s.name, some i⟩) :=
        NodeSpec.align_eq_error_iff.mpr ⟨i, name, hPast, hAnchor, hFirst, rfl⟩
      rw [lex_of_align_error hWave.valid hWave.wave hAlign, error_bind]
  | @dangling gs g hWave hEnds hHead hPoint =>
      have hAgain := (hWave.valid g (List.mem_of_mem_head? hHead)).again_iff.mpr hPoint
      rw [lex_of_dangling hWave.valid hWave.wave hEnds hHead hAgain, error_bind]
  | @pastCycles gs length i name hWave hEnds hStart hCut hInside hAnchor hPast hFirst =>
      obtain ⟨tokens, hTokens, hLength⟩ := exists_tokens hWave hEnds hStart
      obtain ⟨t, hIndex, hClipped⟩ :=
        firstClipped_of_first hTokens (hLength ▸ hInside) hAnchor hPast hFirst
      have hShort : (length : Int) < tokens.length * s.period := by
        rw [hLength]
        exact_mod_cast hCut.2
      have hResolve : Segment.resolve tokens s.period s.data (some length) s.name =
          .error (.malformed (.anchorPastCycles name) ⟨s.name, some i⟩) :=
        Segment.resolve_eq_error_iff.mpr ⟨hShort, (t, name), hClipped, by rw [hIndex]⟩
      rw [hTokens, ok_bind, Signal.length, hCut.1, Option.getD_some, hResolve, error_bind]

theorem compile_of_sound (h : s.Sound) : Succeeds s.compile.outcome := by
  obtain ⟨gs, hWave, hStart, hEnds, hKept⟩ := h
  obtain ⟨tokens, hTokens, hLength⟩ := exists_tokens hWave hEnds hStart
  rw [outcome_compile, hTokens, ok_bind]
  refine Succeeds.bind (succeeds_iff.mpr fun e hError => ?_) fun _ _ => succeeds_pure _
  obtain ⟨hShort, found, hFound, _⟩ := Segment.resolve_eq_error_iff.mp hError
  obtain ⟨before, after, hSplit, _, hAnchor, hPast⟩ := Segment.firstClipped_eq_some_iff.mp hFound
  obtain ⟨i, hi⟩ := List.mem_iff_getElem?.mp
    (show found.1 ∈ tokens by rw [hSplit]; simp)
  obtain ⟨hInside, _⟩ := List.getElem?_eq_some_iff.mp hi
  obtain ⟨hIndex, hName⟩ := lex_getElem? hTokens hi
  have hCut : s.CutAt gs.length (s.length tokens.length) := by
    rw [← hLength]
    have hShort : s.length tokens.length < tokens.length * s.period := by exact_mod_cast hShort
    cases hCycles : s.cycles with
    | none => simp [Signal.length, hCycles] at hShort
    | some length => exact ⟨by simp [Signal.length, hCycles], hShort⟩
  have hBefore := hKept _ hCut i (hLength ▸ hInside) (by rw [← hName, hAnchor]; simp)
  rw [hIndex] at hPast
  exact absurd (by exact_mod_cast hPast) (not_le.mpr hBefore)

/-- The anchors that a signal declares, with the cycles they stand at. -/
def anchors (s : Signal K) : List (String × Nat) :=
  (List.range s.node.toNames.length).filterMap fun i =>
    (s.node.anchorAt i).map fun name => (name, i * s.period)

/-- Places that hold nothing do not count. -/
theorem filterMap_range_eq {α : Type} {f : Nat → Option α} {m n : Nat}
    (hm : ∀ i, m ≤ i → f i = none) (hn : ∀ i, n ≤ i → f i = none) :
    (List.range m).filterMap f = (List.range n).filterMap f := by
  have hLonger {k l : Nat} (hk : ∀ i, k ≤ i → f i = none) (hLe : k ≤ l) :
      (List.range l).filterMap f = (List.range k).filterMap f := by
    obtain ⟨d, rfl⟩ := Nat.exists_eq_add_of_le hLe
    have hRest : (List.range d).filterMap (f ∘ (k + ·)) = [] :=
      List.filterMap_eq_nil_iff.mpr fun i _ => hk _ (Nat.le_add_right k i)
    rw [List.range_add, List.filterMap_append, List.filterMap_map, hRest, List.append_nil]
  rcases Nat.le_total m n with h | h
  · exact (hLonger hm h).symm
  · exact hLonger hn h

/-- The segments of a compiled signal carry the anchors that it declares. -/
theorem anchors_of_compile {c : Compiled K} (hPeriod : 1 ≤ s.period)
    (h : s.compile.outcome = .ok c) :
    (c.segments.filterMap fun seg => seg.anchor.map fun name => (name, seg.start)) =
      s.anchors.map fun a => (a.1, (a.2 : Int)) := by
  obtain ⟨_, hTokens, hSegments, _⟩ := of_compile h
  obtain ⟨gs, hValid, hSpell, hEnds, _⟩ := lex_eq_ok hTokens
  rw [← lex_length hTokens hValid hSpell] at hEnds
  have hPlaces : (c.tokens.map fun t => (t.anchor, t.index)) =
      (List.range c.tokens.length).map fun i => (s.node.anchorAt i, i) := by
    apply List.ext_getElem (by simp)
    intro i hi _
    obtain ⟨hIndex, hAnchor⟩ :=
      lex_getElem? hTokens (List.getElem?_eq_getElem (by simpa using hi))
    simp [hIndex, hAnchor]
  have hTokenAnchors : (c.tokens.filterMap fun t => t.anchor.map fun name =>
      (name, (t.index : Int) * s.period)) = ((c.tokens.map fun t => (t.anchor, t.index)).filterMap
        fun place => place.1.map fun name => (name, (place.2 : Int) * s.period)) := by
    rw [List.filterMap_map]
    rfl
  rw [Segment.anchors_resolve (lex_numbered hTokens) (by exact_mod_cast hPeriod) hSegments,
    hTokenAnchors, hPlaces, List.filterMap_map, anchors, List.map_filterMap]
  refine (filterMap_range_eq (fun i hi => ?_) fun i hi => ?_).trans
    (List.filterMap_congr fun i _ => ?_)
  · simp [hEnds i hi]
  · simp [NodeSpec.anchorAt_eq_none hi]
  · cases hAnchor : s.node.anchorAt i <;> simp [hAnchor]

end Signal

namespace Document

variable {K : Type} {d : Document K} {e : Error}

/-- The anchors of all signals in document order, each with its place. -/
def declaredAnchors (d : Document K) : List (String × Place) :=
  d.signals.flatMap fun s => s.anchors.map fun a => (a.1, ⟨s.name, some a.2⟩)

/-- A document that can be drawn. -/
structure Sound (d : Document K) : Prop where
  signals : ∀ s ∈ d.signals, s.Sound
  anchors : (d.declaredAnchors.map Prod.fst).Nodup

/-- The faults of a document that cannot be drawn: that of its first signal with a fault, and
where no signal has one, the first anchor whose name is taken. -/
inductive Offence (d : Document K) : Error → Prop where
  | signal {before after : List (Signal K)} {s : Signal K} {e : Error}
      (split : d.signals = before ++ s :: after) (first : ∀ t ∈ before, t.Sound)
      (fault : s.Offence e) : Offence d e
  | anchor {e : Error} (sound : ∀ s ∈ d.signals, s.Sound) (clash : NameClash d.declaredAnchors e) :
      Offence d e

theorem Offence.ne_fault (h : d.Offence e) (cause : Fault) : e ≠ .fault cause := by
  rintro rfl
  cases h with
  | signal _ _ hFault => cases hFault
  | anchor _ hClash =>
      generalize d.declaredAnchors = declared at hClash
      cases hClash

end Document
end TimingDiagram
