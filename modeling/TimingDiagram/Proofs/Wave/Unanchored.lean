import TimingDiagram.Proofs.Wave.Meaning

/-! Waves without their anchors. Reading a wave, cutting it into pieces and fitting these to a length
leave the anchors alone, so that a signal without anchors has the tokens and the pieces of the one
with them, but for the anchors. Only the merging of the pieces looks at an anchor. -/
namespace TimingDiagram

namespace Token

/-- The token without its anchor. -/
def unanchored (t : Token) : Token := { t with anchor := none }

theorem ofGlyph?_unanchored (before : Option Token) (index : Nat) (g : Glyph)
    (anchor : Option String) :
    ofGlyph? (before.map unanchored) index g none =
      (ofGlyph? before index g anchor).map unanchored := by
  unfold ofGlyph?
  cases before <;> cases g.tag <;> rfl

/-- Anchors do not matter to what is read next. -/
theorem sequence_unanchored (before : Option Token) (index : Nat)
    (entries : List (Glyph × Option String)) :
    sequence (before.map unanchored) index (entries.map fun e => (e.1, none)) =
      (sequence before index entries).map (List.map unanchored) := by
  induction entries generalizing before index with
  | nil => rfl
  | cons entry rest ih =>
      obtain ⟨g, anchor⟩ := entry
      rw [List.map_cons, sequence, sequence, ofGlyph?_unanchored before index g anchor]
      cases ofGlyph? before index g anchor with
      | none => rfl
      | some t =>
          have hRest := ih (some t) (index + 1)
          rw [Option.map_some] at hRest
          simp only [Option.map_some, hRest]
          cases sequence (some t) (index + 1) rest <;> rfl

/-- What is true of every symbol, and of one that says nothing, is true of what the symbols stand
for. -/
theorem forall_resolved_of_sequence {P : Tag → Prop} (hBlank : P .dontCare) {before : Option Token}
    {index : Nat} {entries : List (Glyph × Option String)} {tokens : List Token}
    (h : sequence before index entries = .ok tokens) (hBefore : ∀ u ∈ before, P u.resolved)
    (hTags : ∀ t ∈ tokens, P t.tag) : ∀ t ∈ tokens, P t.resolved := by
  induction entries generalizing before index tokens with
  | nil =>
      cases h
      simp
  | cons entry rest ih =>
      obtain ⟨g, anchor⟩ := entry
      obtain ⟨t, others, hToken, hRest, rfl⟩ := sequence_cons_eq_ok h
      obtain ⟨hTag, hOthers⟩ := List.forall_mem_cons.mp hTags
      have hOwn : P t.resolved := by
        unfold ofGlyph? at hToken
        split at hToken
        · obtain ⟨u, hu, rfl⟩ := Option.map_eq_some_iff.mp hToken
          exact hBefore u hu
        · split at hToken
          · cases hToken
            exact hBlank
          · rename_i u
            cases hToken
            exact hBefore u rfl
        · cases hToken
          exact hTag
      exact List.forall_mem_cons.mpr ⟨hOwn, ih hRest (by simpa using hOwn) hOthers⟩

end Token

/-- A wave without anchors has the tokens of the wave with them, but for the anchors. -/
theorem lex_unanchored {wave signal : String} {node : NodeSpec} {tokens : List Token}
    (h : lex wave node signal none = .ok tokens) :
    lex wave .absent signal none = .ok (tokens.map Token.unanchored) := by
  obtain ⟨gs, hValid, hSpell, _, hTokens⟩ := lex_eq_ok h
  have hEntries : entriesOf .absent gs = (entriesOf node gs).map fun e => (e.1, none) := by
    calc entriesOf .absent gs
      _ = ((entriesOf node gs).map Prod.fst).map fun g => (g, none) := by
        rw [entriesOf_absent, map_fst_entriesOf]
      _ = (entriesOf node gs).map fun e => (e.1, none) := List.map_map
  have hSame := Token.sequence_unanchored none 0 (entriesOf node gs)
  rw [← hEntries, Option.map_none, hTokens] at hSame
  rw [lex_of_endsAt hValid hSpell (NodeSpec.endsAt_absent _), hSame]
  rfl

theorem lex_forall_resolved {P : Tag → Prop} (hBlank : P .dontCare) {wave signal : String}
    {node : NodeSpec} {tokens : List Token} (h : lex wave node signal none = .ok tokens)
    (hTags : ∀ t ∈ tokens, P t.tag) : ∀ t ∈ tokens, P t.resolved := by
  obtain ⟨_, _, _, _, hTokens⟩ := lex_eq_ok h
  exact Token.forall_resolved_of_sequence hBlank hTokens (by simp) hTags

namespace Segment

/-- The segment without its anchor. -/
def unanchored (s : Segment) : Segment := { s with anchor := none }

variable {period length : Int} {tokens : List Token} {data : List String} {declared : Option Int}
  {signal : String} {ps : List Segment}

theorem pieces_unanchored (period : Int) (tokens : List Token) (labels : List String) :
    pieces period (tokens.map Token.unanchored) labels =
      (pieces period tokens labels).map unanchored := by
  induction tokens generalizing labels with
  | nil => rfl
  | cons t rest ih =>
      rw [List.map_cons, pieces_cons, pieces_cons, List.map_cons, ← ih]
      rfl

theorem clip_unanchored (length : Int) (segments : List Segment) :
    clip length (segments.map unanchored) = (clip length segments).map unanchored := by
  induction segments with
  | nil => rfl
  | cons s rest ih =>
      have hStart : s.unanchored.start = s.start := rfl
      have hStop : s.unanchored.stop = s.stop := rfl
      rw [List.map_cons, clip, clip, hStart, hStop, ih]
      split_ifs <;> rfl

theorem padding_unanchored (total length : Int) (last : Option Segment) :
    padding total length (last.map unanchored) = (padding total length last).unanchored := by
  cases last <;> rfl

theorem firstClipped_unanchored (period length : Int) (tokens : List Token) :
    firstClipped period length (tokens.map Token.unanchored) = none := by
  rw [firstClipped, List.findSome?_eq_none_iff]
  rintro t ht
  obtain ⟨_, _, rfl⟩ := List.mem_map.mp ht
  rfl

/-- Pieces are fitted to a length without regard to their anchors, and without anchors none stands
in the way. -/
theorem fitted_unanchored (h : fitted tokens period data declared signal = .ok ps) :
    fitted (tokens.map Token.unanchored) period data declared signal =
      .ok (ps.map unanchored) := by
  have hPieces := pieces_unanchored period tokens data
  cases declared with
  | none =>
      cases h
      rw [fitted, hPieces]
  | some length =>
      simp only [fitted, List.length_map, hPieces, firstClipped_unanchored] at h ⊢
      split_ifs at h ⊢ with hLong hShort
      · cases h
        rw [List.map_append, List.getLast?_map, padding_unanchored, List.map_singleton]
      · split at h
        · cases h
        · cases h
          rw [clip_unanchored]
      · cases h
        rfl

/-- A fitted piece opens as the piece of a token, or pads the others. -/
theorem mem_fitted (h : fitted tokens period data declared signal = .ok ps) {s : Segment}
    (hs : s ∈ ps) : (∃ whole ∈ pieces period tokens data, s.opening = whole.opening) ∨
      ∃ total length, s = padding total length (pieces period tokens data).getLast? := by
  rcases fitted_cases h with ⟨_, rfl⟩ | ⟨_, rfl⟩ | ⟨_, _, rfl⟩
  · exact .inl ⟨s, hs, rfl⟩
  · rcases List.mem_append.mp hs with hs | hs
    · exact .inl ⟨s, hs, rfl⟩
    · exact .inr ⟨_, _, List.mem_singleton.mp hs⟩
  · obtain ⟨whole, hMem, hOpening, _⟩ := mem_clip hs
    exact .inl ⟨whole, hMem, hOpening⟩

theorem unlabelled_fitted (hTokens : Token.Numbered 0 tokens)
    (h : fitted tokens period data declared signal = .ok ps) : ∀ s ∈ ps, s.Unlabelled := by
  intro s hs
  rcases mem_fitted h hs with ⟨whole, hMem, hOpening⟩ | ⟨_, _, rfl⟩
  · change s.opening.Unlabelled
    rw [hOpening]
    exact unlabelled_pieces hTokens period data whole hMem
  · exact unlabelled_padding _ _ _

/-- A segment that is drawn as its symbol says, of which something holds. -/
def Tagged (P : Tag → Prop) (s : Segment) : Prop :=
  ∃ tag, s.tag = some tag ∧ P tag ∧ s.kind = .ofTag tag ∧ s.level = tag.level?

/-- A segment that is drawn as its symbol says, which is no clock. -/
def Steady (s : Segment) : Prop :=
  s.Tagged fun tag => tag.isClock = false ∧ tag.isContinuation = false

/-- The symbols of the pieces are those that the tokens stand for. -/
theorem tagged_fitted {P : Tag → Prop} (hBlank : P .dontCare) (hNumbered : Token.Numbered 0 tokens)
    (hTokens : ∀ t ∈ tokens, P t.resolved)
    (h : fitted tokens period data declared signal = .ok ps) : ∀ s ∈ ps, s.Tagged P := by
  have hPieces : ∀ s ∈ pieces period tokens data, s.Tagged P := by
    rw [pieces_eq_map hNumbered]
    intro s hs
    obtain ⟨t, ht, rfl⟩ := List.mem_map.mp hs
    exact ⟨t.resolved, rfl, hTokens t ht, rfl, rfl⟩
  intro s hs
  rcases mem_fitted h hs with ⟨whole, hMem, hOpening⟩ | ⟨total, length, rfl⟩
  · change s.opening.Tagged P
    rw [hOpening]
    exact hPieces whole hMem
  · cases hLast : (pieces period tokens data).getLast? with
    | none => exact ⟨.dontCare, rfl, hBlank, rfl, rfl⟩
    | some last => exact hPieces last (List.mem_of_getLast? hLast)

theorem opening_of_mem_coalesceFrom {current s : Segment} {rest : List Segment}
    (h : s ∈ coalesceFrom current rest) : ∃ p ∈ current :: rest, s.opening = p.opening := by
  induction rest generalizing current with
  | nil => exact ⟨current, List.mem_cons_self, by rw [List.mem_singleton.mp h]⟩
  | cons next rest ih =>
      rw [coalesceFrom] at h
      split_ifs at h
      · obtain ⟨p, hp, hOpening⟩ := ih h
        rcases List.mem_cons.mp hp with rfl | hp
        · exact ⟨current, List.mem_cons_self, hOpening⟩
        · exact ⟨p, by simp [hp], hOpening⟩
      · rcases List.mem_cons.mp h with rfl | h
        · exact ⟨s, List.mem_cons_self, rfl⟩
        · obtain ⟨p, hp, hOpening⟩ := ih h
          exact ⟨p, List.mem_cons_of_mem _ hp, hOpening⟩

/-- Merged segments have symbols of their pieces. -/
theorem tagged_coalesce {P : Tag → Prop} (h : ∀ p ∈ ps, p.Tagged P) :
    ∀ s ∈ coalesce ps, s.Tagged P := by
  intro s hs
  cases ps with
  | nil => cases hs
  | cons p rest =>
      obtain ⟨first, hFirst, hOpening⟩ := opening_of_mem_coalesceFrom hs
      change s.opening.Tagged P
      rw [hOpening]
      exact h first hFirst

theorem tagged_unanchored {P : Tag → Prop} (h : ∀ p ∈ ps, p.Tagged P) :
    ∀ p ∈ ps.map unanchored, p.Tagged P :=
  List.forall_mem_map.mpr h

end Segment

/-- The pieces that the segments of a compiled signal are merged from. -/
structure Compiled.MergedFrom {K : Type} (c : Compiled K) (ps : List Segment) : Prop where
  segments : c.segments = Segment.coalesce ps
  tiles : Segment.Tiles 0 c.length ps
  labels : ∀ p ∈ ps, p.Unlabelled
  tagged : ∀ P : Tag → Prop, P .dontCare → (∀ t ∈ c.tokens, P t.resolved) → ∀ p ∈ ps, p.Tagged P
  tokens : ∃ wave node name, lex wave node name none = .ok c.tokens

namespace Compiled.MergedFrom

variable {K : Type} {c : Compiled K} {ps : List Segment}

/-- Without clocks among its symbols a signal has steady pieces. -/
theorem steady (h : c.MergedFrom ps) (hClock : ∀ t ∈ c.tokens, t.tag.isClock = false) :
    ∀ p ∈ ps, p.Steady := by
  obtain ⟨_, _, _, hTokens⟩ := h.tokens
  have hResolved := lex_forall_resolved (P := fun tag => tag.isClock = false) rfl hTokens hClock
  exact h.tagged _ ⟨rfl, rfl⟩ fun t ht => ⟨hResolved t ht, (lex_settled hTokens t ht).state⟩

/-- Without sharp ones among its symbols a signal has no sharp segment, be its pieces merged with
their anchors or without. -/
theorem plain (h : c.MergedFrom ps) (hPlain : ∀ t ∈ c.tokens, t.tag.isSharp = false) :
    (∀ s ∈ Segment.coalesce ps, s.isSharp = false) ∧
      ∀ s ∈ Segment.coalesce (ps.map Segment.unanchored), s.isSharp = false := by
  obtain ⟨_, _, _, hTokens⟩ := h.tokens
  have hResolved := lex_forall_resolved (P := fun tag => tag.isSharp = false) rfl hTokens hPlain
  have hPieces := h.tagged (fun tag => tag.isSharp = false) rfl hResolved
  have hSharp {s : Segment} (hs : s.Tagged fun tag => tag.isSharp = false) : s.isSharp = false := by
    obtain ⟨tag, hTag, hOwn, _⟩ := hs
    rw [Segment.isSharp, hTag]
    exact hOwn
  exact ⟨fun s hs => hSharp (Segment.tagged_coalesce hPieces s hs),
    fun s hs => hSharp (Segment.tagged_coalesce (Segment.tagged_unanchored hPieces) s hs)⟩

end Compiled.MergedFrom

namespace Signal

variable {K : Type} {s : Signal K} {c : Compiled K}

/-- The signal without its anchors. -/
def unanchored (s : Signal K) : Signal K := { s with node := .absent }

/-- A signal that is compiled is compiled without its anchors as well, from the same pieces. -/
theorem compile_unanchored (hPeriod : 1 ≤ s.period) (h : s.compile.outcome = .ok c) :
    ∃ ps, c.MergedFrom ps ∧ s.unanchored.compile.outcome = .ok
      ⟨s.unanchored, c.tokens.map Token.unanchored,
        Segment.coalesce (ps.map Segment.unanchored), c.length⟩ := by
  obtain ⟨_, hTokens, hSegments, hLength⟩ := of_compile h
  obtain ⟨ps, hFitted, hMerged⟩ := Segment.resolve_eq_ok_iff.mp hSegments
  have hNumbered := lex_numbered hTokens
  refine ⟨ps, ⟨hMerged.symm, ?_, Segment.unlabelled_fitted hNumbered hFitted,
    fun P hBlank hAll => Segment.tagged_fitted hBlank hNumbered hAll hFitted, _, _, _, hTokens⟩, ?_⟩
  · exact Segment.tiles_fitted hNumbered (by exact_mod_cast hPeriod) (by simp) hFitted
  · have hOwn : s.unanchored.length (c.tokens.map Token.unanchored).length = c.length := by
      rw [List.length_map, hLength]
      rfl
    have hBare := Segment.resolve_eq_ok_iff.mpr ⟨_, Segment.fitted_unanchored hFitted, rfl⟩
    rw [← hOwn] at hBare ⊢
    exact compile_eq_ok (lex_unanchored hTokens) hBare

end Signal
end TimingDiagram
