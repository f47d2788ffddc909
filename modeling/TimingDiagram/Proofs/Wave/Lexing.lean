import TimingDiagram.Proofs.Wave.Grammar
import TimingDiagram.Wave.Lexer

/-! The tokens of a wave. There is one for each glyph, numbered from zero, with the anchor
that is declared for its place; nothing is declared past the last one. -/
namespace TimingDiagram

namespace NodeSpec

/-- The anchor that is declared for a place, if there is one. -/
def anchorAt (node : NodeSpec) (i : Nat) : Option String := (node.toNames[i]?).join

/-- No place from `count` on has an anchor. -/
def EndsAt (node : NodeSpec) (count : Nat) : Prop := ∀ i, count ≤ i → node.anchorAt i = none

theorem anchorAt_eq_none {node : NodeSpec} {i : Nat} (h : node.toNames.length ≤ i) :
    node.anchorAt i = none := by
  rw [anchorAt, List.getElem?_eq_none h, Option.join_none]

theorem endsAt_absent (count : Nat) : NodeSpec.absent.EndsAt count :=
  fun _ _ => anchorAt_eq_none (Nat.zero_le _)

theorem firstFrom_eq_none_iff {start : Int} {names : List (Option String)} :
    firstFrom start names = none ↔ ∀ k : Nat, (names[k]?).join = none := by
  induction names generalizing start with
  | nil => simp [firstFrom]
  | cons name names ih =>
      cases name with
      | some name =>
          simp only [firstFrom, reduceCtorEq, false_iff, not_forall]
          exact ⟨0, by simp⟩
      | none =>
          rw [firstFrom, ih]
          refine ⟨fun h k => ?_, fun h k => by simpa using h (k + 1)⟩
          cases k with
          | zero => simp
          | succ k => simpa using h k

theorem firstFrom_eq_some_iff {start : Int} {names : List (Option String)} {found : Int × String} :
    firstFrom start names = some found ↔
      ∃ k : Nat, found.1 = start + k ∧ (names[k]?).join = some found.2 ∧
        ∀ m < k, (names[m]?).join = none := by
  induction names generalizing start with
  | nil => simp [firstFrom]
  | cons name names ih =>
      cases name with
      | some name =>
          rw [firstFrom, Option.some.injEq]
          constructor
          · rintro rfl
            exact ⟨0, by simp⟩
          · rintro ⟨k, hStart, hName, hBefore⟩
            cases k with
            | zero =>
                simp only [List.getElem?_cons_zero, Option.join_some, Option.some.injEq] at hName
                exact Prod.ext (by simpa using hStart.symm) hName
            | succ k =>
                have := hBefore 0 (Nat.succ_pos k)
                simp at this
      | none =>
          rw [firstFrom, ih]
          constructor
          · rintro ⟨k, hStart, hName, hBefore⟩
            refine ⟨k + 1, by omega, by simpa using hName, fun m hm => ?_⟩
            cases m with
            | zero => simp
            | succ m => simpa using hBefore m (by omega)
          · rintro ⟨k, hStart, hName, hBefore⟩
            cases k with
            | zero => simp at hName
            | succ k =>
                refine ⟨k, by omega, by simpa using hName, fun m hm => ?_⟩
                simpa using hBefore (m + 1) (by omega)

theorem anchorAt_drop (node : NodeSpec) (count k : Nat) :
    ((node.toNames.drop count)[k]?).join = node.anchorAt (count + k) := by
  rw [List.getElem?_drop, anchorAt]

theorem align_of_endsAt {node : NodeSpec} {count : Nat} (signal : String) (h : node.EndsAt count) :
    node.align count signal = .ok ((List.range count).map node.anchorAt) := by
  have hNone : firstFrom count (node.toNames.drop count) = none :=
    firstFrom_eq_none_iff.mpr fun k => by
      rw [anchorAt_drop]
      exact h _ (Nat.le_add_right count k)
  simp only [align, hNone, Except.ok.injEq]
  apply List.ext_getElem?
  intro i
  have hMap : ((List.range count).map node.anchorAt)[i]? =
      if i < count then some (node.toNames[i]?).join else none := by
    split_ifs with hi
    · rw [List.getElem?_map, List.getElem?_range hi, Option.map_some, anchorAt]
    · exact List.getElem?_eq_none (by simpa using hi)
  rw [hMap]
  grind

theorem endsAt_of_align_eq_ok {node : NodeSpec} {count : Nat} {signal : String}
    {anchors : List (Option String)} (h : node.align count signal = .ok anchors) :
    node.EndsAt count := by
  simp only [align] at h
  split at h
  · cases h
  · rename_i hNone
    intro i hi
    have := firstFrom_eq_none_iff.mp hNone (i - count)
    rwa [anchorAt_drop, Nat.add_sub_cancel' hi] at this

/-- The first anchor past the symbols is the answer. -/
theorem align_eq_error_iff {node : NodeSpec} {count : Nat} {signal : String} {e : Error} :
    node.align count signal = .error e ↔
      ∃ i name, count ≤ i ∧ node.anchorAt i = some name ∧
        (∀ j, count ≤ j → j < i → node.anchorAt j = none) ∧
        e = .malformed (.anchorPastWave name) ⟨signal, some i⟩ := by
  simp only [align]
  constructor
  · intro h
    split at h
    · rename_i found hFound
      obtain ⟨k, hIndex, hName, hBefore⟩ := firstFrom_eq_some_iff.mp hFound
      rw [anchorAt_drop] at hName
      simp only [anchorAt_drop] at hBefore
      cases h
      refine ⟨count + k, found.2, by omega, hName, fun j hj hk => ?_, ?_⟩
      · have := hBefore (j - count) (by omega)
        rwa [Nat.add_sub_cancel' hj] at this
      · rw [pastWave, hIndex]
        rfl
    · cases h
  · rintro ⟨i, name, hi, hName, hBefore, rfl⟩
    have hFound : firstFrom count (node.toNames.drop count) = some (↑i, name) :=
      firstFrom_eq_some_iff.mpr ⟨i - count, by simp only; omega, by
        rw [anchorAt_drop, Nat.add_sub_cancel' hi]
        exact hName, fun m hm => by
        rw [anchorAt_drop]
        exact hBefore _ (by omega) (by omega)⟩
    rw [hFound]
    rfl

end NodeSpec

namespace Token

/-- Tokens that are numbered one after another from `start` on. -/
def Numbered (start : Nat) (tokens : List Token) : Prop :=
  tokens.map Token.index = List.range' start tokens.length

@[simp] theorem numbered_nil (start : Nat) : Numbered start [] := rfl

@[simp] theorem numbered_cons {start : Nat} {t : Token} {tokens : List Token} :
    Numbered start (t :: tokens) ↔ t.index = start ∧ Numbered (start + 1) tokens := by
  simp [Numbered, List.range'_succ]

theorem Numbered.index_getElem? {start i : Nat} {tokens : List Token} {t : Token}
    (h : Numbered start tokens) (ht : tokens[i]? = some t) : t.index = start + i := by
  have hIndex : (tokens.map Token.index)[i]? = some t.index := by simp [ht]
  rw [h] at hIndex
  obtain ⟨hi, hEq⟩ := List.getElem?_eq_some_iff.mp hIndex
  simpa using hEq.symm

/-- The token at a place is the one with its number. -/
theorem Numbered.getElem?_eq_some_iff {i : Nat} {tokens : List Token} {t : Token}
    (h : Numbered 0 tokens) : tokens[i]? = some t ↔ t ∈ tokens ∧ t.index = i := by
  constructor
  · intro ht
    exact ⟨List.mem_of_getElem? ht, by simpa using h.index_getElem? ht⟩
  · rintro ⟨hMem, rfl⟩
    obtain ⟨j, hj⟩ := List.mem_iff_getElem?.mp hMem
    have hIndex : t.index = j := by simpa using h.index_getElem? hj
    rwa [hIndex]

/-- What a token takes from its glyph and its place. -/
theorem of_ofGlyph? {before : Option Token} {index : Nat} {g : Glyph} {anchor : Option String}
    {t : Token} (h : ofGlyph? before index g anchor = some t) :
    t.index = index ∧ t.symbol = g.symbol ∧ t.tag = g.tag ∧ t.anchor = anchor := by
  unfold ofGlyph? at h
  split at h
  · rename_i hTag
    obtain ⟨_, _, rfl⟩ := Option.map_eq_some_iff.mp h
    exact ⟨rfl, rfl, hTag.symm, rfl⟩
  · rename_i hTag
    split at h <;> cases h <;> exact ⟨rfl, rfl, hTag.symm, rfl⟩
  · cases h
    exact ⟨rfl, rfl, rfl, rfl⟩

/-- A glyph has no token only where a repeat comes first. -/
theorem ofGlyph?_eq_none_iff {before : Option Token} {index : Nat} {g : Glyph}
    {anchor : Option String} :
    ofGlyph? before index g anchor = none ↔ g.tag = .again ∧ before = none := by
  unfold ofGlyph?
  split
  · rename_i hTag
    simp [hTag]
  · rename_i hTag
    cases before <;> simp [hTag]
  · rename_i hAgain _
    simp only [reduceCtorEq, false_iff, not_and]
    exact fun hTag => absurd hTag (by simpa using hAgain)

theorem sequence_cons_eq_ok {before : Option Token} {index : Nat} {g : Glyph}
    {anchor : Option String} {rest : List (Glyph × Option String)} {tokens : List Token}
    (h : sequence before index ((g, anchor) :: rest) = .ok tokens) :
    ∃ t others, ofGlyph? before index g anchor = some t ∧
      sequence (some t) (index + 1) rest = .ok others ∧ tokens = t :: others := by
  rw [sequence] at h
  split at h
  · cases h
  · rename_i t hToken
    cases hRest : sequence (some t) (index + 1) rest with
    | error e =>
        rw [hRest] at h
        cases h
    | ok others =>
        rw [hRest] at h
        cases h
        exact ⟨t, others, hToken, hRest, rfl⟩

/-- After a token nothing is missing. -/
theorem sequence_some (t : Token) (index : Nat) (rest : List (Glyph × Option String)) :
    ∃ tokens, sequence (some t) index rest = .ok tokens := by
  induction rest generalizing t index with
  | nil => exact ⟨[], rfl⟩
  | cons entry rest ih =>
      obtain ⟨g, anchor⟩ := entry
      obtain ⟨next, hNext⟩ : ∃ next, ofGlyph? (some t) index g anchor = some next :=
        Option.ne_none_iff_exists'.mp fun h => by simp [ofGlyph?_eq_none_iff] at h
      obtain ⟨others, hOthers⟩ := ih next (index + 1)
      exact ⟨next :: others, by rw [sequence, hNext]; simp only [hOthers]; rfl⟩

/-- A sequence fails exactly where a repeat comes first, and there at once. -/
theorem sequence_eq_error_iff {before : Option Token} {index i : Nat}
    {entries : List (Glyph × Option String)} :
    sequence before index entries = .error i ↔
      before = none ∧ i = index ∧ ∃ entry ∈ entries.head?, entry.1.tag = .again := by
  cases entries with
  | nil => simp [sequence]
  | cons entry rest =>
      obtain ⟨g, anchor⟩ := entry
      rw [sequence]
      split
      · rename_i hNone
        obtain ⟨hAgain, hBefore⟩ := ofGlyph?_eq_none_iff.mp hNone
        simp [hAgain, hBefore, eq_comm]
      · rename_i t hToken
        obtain ⟨others, hOthers⟩ := sequence_some t (index + 1) rest
        rw [hOthers]
        simp only [Except.map, reduceCtorEq, List.head?_cons, Option.mem_some_iff,
          exists_eq_left', false_iff, not_and]
        rintro hBefore - hAgain
        have hNone : ofGlyph? before index g anchor = none :=
          ofGlyph?_eq_none_iff.mpr ⟨hAgain, hBefore⟩
        rw [hToken] at hNone
        cases hNone

/-- Reading goes on after some tokens with the state of the last of them. -/
theorem sequence_append {before : Option Token} {index : Nat}
    {entries more : List (Glyph × Option String)} {tokens : List Token}
    (h : sequence before index entries = .ok tokens) :
    sequence before index (entries ++ more) =
      (sequence (tokens.getLast?.or before) (index + entries.length) more).map (tokens ++ ·) := by
  induction entries generalizing before index tokens with
  | nil =>
      cases h
      simp only [List.nil_append, List.getLast?_nil, Option.none_or, List.length_nil, Nat.add_zero]
      cases sequence before index more <;> rfl
  | cons entry rest ih =>
      obtain ⟨g, anchor⟩ := entry
      obtain ⟨t, others, hToken, hRest, rfl⟩ := sequence_cons_eq_ok h
      have hLast : (t :: others).getLast?.or before = others.getLast?.or (some t) := by
        cases others with
        | nil => rfl
        | cons next others =>
            rw [List.getLast?_cons_cons, List.getLast?_cons]
            rfl
      rw [List.cons_append, sequence, hToken]
      simp only [ih hRest, hLast, List.length_cons, Nat.add_right_comm index 1, Nat.add_assoc]
      cases sequence (others.getLast?.or (some t)) (index + (rest.length + 1)) more <;> rfl

/-- A sequence holds one token for each entry, numbered and with its anchor. -/
theorem of_sequence {before : Option Token} {index : Nat} {entries : List (Glyph × Option String)}
    {tokens : List Token} (h : sequence before index entries = .ok tokens) :
    Numbered index tokens ∧ tokens.map Token.tag = entries.map (fun e => e.1.tag) ∧
      tokens.map Token.anchor = entries.map Prod.snd := by
  induction entries generalizing before index tokens with
  | nil =>
      cases h
      simp
  | cons entry rest ih =>
      obtain ⟨g, anchor⟩ := entry
      obtain ⟨t, others, hToken, hRest, rfl⟩ := sequence_cons_eq_ok h
      obtain ⟨hIndex, _, hTag, hAnchor⟩ := of_ofGlyph? hToken
      obtain ⟨hNumbered, hTags, hAnchors⟩ := ih hRest
      simp [hIndex, hTag, hAnchor, hNumbered, hTags, hAnchors]

/-- A symbol that continues nothing stands for what it means on its own. -/
theorem resolved_of_ofGlyph? {before : Option Token} {index : Nat} {g : Glyph}
    {anchor : Option String} {t : Token} (h : ofGlyph? before index g anchor = some t)
    (hTag : t.tag.isContinuation = false) : t.resolved = t.tag := by
  unfold ofGlyph? at h
  split at h
  · obtain ⟨_, _, rfl⟩ := Option.map_eq_some_iff.mp h
    cases hTag
  · split at h <;> cases h <;> cases hTag
  · cases h
    rfl

theorem resolved_of_sequence {before : Option Token} {index : Nat}
    {entries : List (Glyph × Option String)} {tokens : List Token}
    (h : sequence before index entries = .ok tokens) :
    ∀ t ∈ tokens, t.tag.isContinuation = false → t.resolved = t.tag := by
  induction entries generalizing before index tokens with
  | nil =>
      cases h
      simp
  | cons entry rest ih =>
      obtain ⟨g, anchor⟩ := entry
      obtain ⟨t, others, hToken, hRest, rfl⟩ := sequence_cons_eq_ok h
      intro u hu hTag
      rcases List.mem_cons.mp hu with rfl | hu
      · exact resolved_of_ofGlyph? hToken hTag
      · exact ih hRest u hu hTag

theorem text_of_ofGlyph? {before : Option Token} {index : Nat} {g : Glyph} {anchor : Option String}
    {t : Token} (h : ofGlyph? before index g anchor = some t) (hPlain : g.label = none) :
    t.text = none := by
  unfold ofGlyph? at h
  split at h
  · obtain ⟨_, _, rfl⟩ := Option.map_eq_some_iff.mp h
    rfl
  · split at h <;> cases h <;> rfl
  · cases h
    simpa using hPlain

/-- Tokens take their texts from their glyphs. -/
theorem text_of_sequence {before : Option Token} {index : Nat}
    {entries : List (Glyph × Option String)} {tokens : List Token}
    (h : sequence before index entries = .ok tokens)
    (hPlain : ∀ entry ∈ entries, entry.1.label = none) : ∀ t ∈ tokens, t.text = none := by
  induction entries generalizing before index tokens with
  | nil =>
      cases h
      simp
  | cons entry rest ih =>
      obtain ⟨g, anchor⟩ := entry
      obtain ⟨t, others, hToken, hRest, rfl⟩ := sequence_cons_eq_ok h
      obtain ⟨hLabel, hLabels⟩ := List.forall_mem_cons.mp hPlain
      exact List.forall_mem_cons.mpr ⟨text_of_ofGlyph? hToken hLabel, ih hRest hLabels⟩

/-- A token that stands for a state of its own, coloured where it is a box with a label. -/
structure Settled (t : Token) : Prop where
  state : t.resolved.isContinuation = false
  color : t.resolved = .data → 2 ≤ t.color ∧ t.color ≤ 9

theorem dataColor_bounds {c : Char} (h : Tag.ofSymbol? c = some .data) :
    2 ≤ dataColor c ∧ dataColor c ≤ 9 := by
  have hColors : ∀ c ∈ Tag.boxSymbols, 2 ≤ dataColor c ∧ dataColor c ≤ 9 :=
    List.forall_iff_forall_mem.mp (by decide)
  exact hColors c (Tag.mem_boxSymbols h)

theorem settled_of_ofGlyph? {before : Option Token} {index : Nat} {g : Glyph}
    {anchor : Option String} {t : Token} (h : ofGlyph? before index g anchor = some t)
    (hValid : g.Valid) (hBefore : ∀ u ∈ before, u.Settled) : t.Settled := by
  unfold ofGlyph? at h
  split at h
  · obtain ⟨u, hu, rfl⟩ := Option.map_eq_some_iff.mp h
    exact ⟨(hBefore u hu).state, (hBefore u hu).color⟩
  · split at h
    · cases h
      exact ⟨rfl, fun hData => by cases hData⟩
    · rename_i u
      cases h
      exact ⟨(hBefore u rfl).state, (hBefore u rfl).color⟩
  · rename_i hAgain hGap
    cases h
    refine ⟨?_, fun hData => ?_⟩
    · cases hTag : g.tag <;> simp_all [Tag.isContinuation]
    · simp only at hData
      simp only [hData, if_true]
      exact dataColor_bounds (hData ▸ hValid.symbol)

theorem settled_of_sequence {before : Option Token} {index : Nat}
    {entries : List (Glyph × Option String)} {tokens : List Token}
    (h : sequence before index entries = .ok tokens) (hValid : ∀ entry ∈ entries, entry.1.Valid)
    (hBefore : ∀ u ∈ before, u.Settled) : ∀ t ∈ tokens, t.Settled := by
  induction entries generalizing before index tokens with
  | nil =>
      cases h
      simp
  | cons entry rest ih =>
      obtain ⟨g, anchor⟩ := entry
      obtain ⟨t, others, hToken, hRest, rfl⟩ := sequence_cons_eq_ok h
      have hSettled := settled_of_ofGlyph? hToken (hValid (g, anchor) (by simp)) hBefore
      have hOthers := ih hRest (fun entry hEntry => hValid entry (List.mem_cons_of_mem _ hEntry))
        (by simpa using hSettled)
      exact List.forall_mem_cons.mpr ⟨hSettled, hOthers⟩

end Token

open Glyph

variable {wave signal : String} {node : NodeSpec} {initial : Option Token} {gs : List Glyph}

/-- The entries that a wave is read from: its glyphs with the anchors of their places. -/
def entriesOf (node : NodeSpec) (gs : List Glyph) : List (Glyph × Option String) :=
  gs.zip ((List.range gs.length).map node.anchorAt)

theorem map_fst_entriesOf : (entriesOf node gs).map Prod.fst = gs := by
  rw [entriesOf, List.map_fst_zip (by simp)]

theorem map_snd_entriesOf :
    (entriesOf node gs).map Prod.snd = (List.range gs.length).map node.anchorAt := by
  rw [entriesOf, List.map_snd_zip (by simp)]

theorem entriesOf_absent (gs : List Glyph) : entriesOf .absent gs = gs.map fun g => (g, none) := by
  have hNone : (List.range gs.length).map NodeSpec.absent.anchorAt =
      List.replicate gs.length none := by
    apply List.eq_replicate_iff.mpr
    refine ⟨by simp, fun anchor hMem => ?_⟩
    obtain ⟨i, _, rfl⟩ := List.mem_map.mp hMem
    exact NodeSpec.endsAt_absent 0 i (Nat.zero_le i)
  rw [entriesOf, hNone]
  apply List.ext_getElem <;> simp

/-- A wave that breaks off has no tokens, and its first bad place is the answer. -/
theorem lex_of_breaksAfter {fault : GlyphFault} (h : BreaksAfter wave.toList gs fault) :
    lex wave node signal initial =
      .error (.invalidSymbol (toString fault.symbol) fault.reason ⟨signal, some gs.length⟩) := by
  rw [lex, glyphs_eq_error_iff.mpr ⟨gs, rfl, h⟩]
  rfl

/-- An anchor past the symbols of a wave is the next thing that is looked for. -/
theorem lex_of_align_error {e : Error} (hValid : ∀ g ∈ gs, g.Valid) (hSpell : wave.toList = spell gs)
    (h : node.align gs.length signal = .error e) : lex wave node signal initial = .error e := by
  rw [lex, glyphs_eq_ok_iff.mpr ⟨hValid, hSpell⟩]
  simp only [h]
  rfl

/-- Without such an anchor only a repeat that comes first is left to fail. -/
theorem lex_of_endsAt (hValid : ∀ g ∈ gs, g.Valid) (hSpell : wave.toList = spell gs)
    (h : node.EndsAt gs.length) :
    lex wave node signal initial =
      match Token.sequence initial 0 (entriesOf node gs) with
      | .error i => .error (.danglingRepeat ⟨signal, some i⟩)
      | .ok tokens => .ok tokens := by
  rw [lex, glyphs_eq_ok_iff.mpr ⟨hValid, hSpell⟩]
  simp only [NodeSpec.align_of_endsAt signal h]
  rfl

/-- The tokens of a wave come from its glyphs and the anchors of their places. -/
theorem lex_eq_ok {tokens : List Token} (h : lex wave node signal initial = .ok tokens) :
    ∃ gs, (∀ g ∈ gs, g.Valid) ∧ wave.toList = spell gs ∧ node.EndsAt gs.length ∧
      Token.sequence initial 0 (entriesOf node gs) = .ok tokens := by
  rcases glyphs_cases wave.toList with ⟨gs, _, hValid, hSpell⟩ | ⟨gs, fault, _, hBreak⟩
  · cases hAlign : node.align gs.length signal with
    | error e =>
        rw [lex_of_align_error hValid hSpell hAlign] at h
        cases h
    | ok anchors =>
        have hEnds := NodeSpec.endsAt_of_align_eq_ok hAlign
        refine ⟨gs, hValid, hSpell, hEnds, ?_⟩
        rw [lex_of_endsAt hValid hSpell hEnds] at h
        split at h <;> simp_all
  · rw [lex_of_breaksAfter hBreak] at h
    cases h

/-- A wave is read when it does not open with a repeat, or when a token comes before it. -/
theorem lex_of_start (hValid : ∀ g ∈ gs, g.Valid) (hSpell : wave.toList = spell gs)
    (h : node.EndsAt gs.length) (hStart : initial = none → ∀ g ∈ gs.head?, g.symbol ≠ '.') :
    ∃ tokens, lex wave node signal initial = .ok tokens := by
  rw [lex_of_endsAt hValid hSpell h]
  split
  · rename_i i hError
    obtain ⟨hAlone, _, entry, hEntry, hAgain⟩ := Token.sequence_eq_error_iff.mp hError
    have hGlyphs : (entriesOf node gs).map Prod.fst = gs := map_fst_entriesOf
    have hHead : entry.1 ∈ gs.head? := by
      rw [← hGlyphs, List.head?_map]
      exact Option.mem_map_of_mem _ hEntry
    have hGlyph := hValid entry.1 (List.mem_of_mem_head? hHead)
    exact absurd (hGlyph.again_iff.mp hAgain) (hStart hAlone entry.1 hHead)
  · rename_i tokens _
    exact ⟨tokens, rfl⟩

theorem lex_of_dangling (hValid : ∀ g ∈ gs, g.Valid) (hSpell : wave.toList = spell gs)
    (h : node.EndsAt gs.length) {g : Glyph} (hHead : gs.head? = some g) (hAgain : g.tag = .again) :
    lex wave node signal none = .error (.danglingRepeat ⟨signal, some 0⟩) := by
  have hEntry : (entriesOf node gs).head? = some (g, node.anchorAt 0) := by
    cases gs with
    | nil => cases hHead
    | cons first rest =>
        cases hHead
        simp [entriesOf, List.range_succ_eq_map]
  have hError : Token.sequence none 0 (entriesOf node gs) = .error 0 :=
    Token.sequence_eq_error_iff.mpr ⟨rfl, rfl, _, hEntry, hAgain⟩
  rw [lex_of_endsAt hValid hSpell h, hError]
  rfl

theorem lex_anchors {tokens : List Token} (h : lex wave node signal initial = .ok tokens) :
    tokens.map Token.anchor = (List.range tokens.length).map node.anchorAt := by
  obtain ⟨gs, _, _, _, hTokens⟩ := lex_eq_ok h
  obtain ⟨_, hTags, hAnchors⟩ := Token.of_sequence hTokens
  have hLength : tokens.length = gs.length := by
    simpa [entriesOf] using congrArg List.length hTags
  rw [hAnchors, map_snd_entriesOf, hLength]

theorem lex_length {tokens : List Token} (h : lex wave node signal initial = .ok tokens)
    (hValid : ∀ g ∈ gs, g.Valid) (hSpell : wave.toList = spell gs) :
    tokens.length = gs.length := by
  obtain ⟨gs', hValid', hSpell', _, hTokens⟩ := lex_eq_ok h
  have hGlyphs := glyphs_eq_ok_iff.mpr ⟨hValid, hSpell⟩
  rw [glyphs_eq_ok_iff.mpr ⟨hValid', hSpell'⟩] at hGlyphs
  cases hGlyphs
  simpa [entriesOf] using congrArg List.length (Token.of_sequence hTokens).2.1

theorem lex_numbered {tokens : List Token} (h : lex wave node signal initial = .ok tokens) :
    Token.Numbered 0 tokens := by
  obtain ⟨gs, _, _, _, hTokens⟩ := lex_eq_ok h
  exact (Token.of_sequence hTokens).1

theorem lex_getElem? {tokens : List Token} (h : lex wave node signal initial = .ok tokens)
    {i : Nat} {t : Token} (ht : tokens[i]? = some t) :
    t.index = i ∧ t.anchor = node.anchorAt i := by
  obtain ⟨hi, _⟩ := List.getElem?_eq_some_iff.mp ht
  have hAnchors := congrArg (fun anchors => anchors[i]?) (lex_anchors h)
  simp only [List.getElem?_map, ht, List.getElem?_range hi, Option.map_some,
    Option.some.injEq] at hAnchors
  exact ⟨by simpa using (lex_numbered h).index_getElem? ht, hAnchors⟩

theorem valid_of_mem_entriesOf (hValid : ∀ g ∈ gs, g.Valid) :
    ∀ entry ∈ entriesOf node gs, entry.1.Valid := by
  intro entry hEntry
  have hGlyph : entry.1 ∈ (entriesOf node gs).map Prod.fst := List.mem_map_of_mem hEntry
  rw [map_fst_entriesOf] at hGlyph
  exact hValid entry.1 hGlyph

theorem lex_settled {tokens : List Token} (h : lex wave node signal none = .ok tokens) :
    ∀ t ∈ tokens, t.Settled := by
  obtain ⟨gs, hValid, _, _, hTokens⟩ := lex_eq_ok h
  exact Token.settled_of_sequence hTokens (valid_of_mem_entriesOf hValid) (by simp)

theorem lex_resolved {tokens : List Token} (h : lex wave node signal initial = .ok tokens) :
    ∀ t ∈ tokens, t.tag.isContinuation = false → t.resolved = t.tag := by
  obtain ⟨gs, _, _, _, hTokens⟩ := lex_eq_ok h
  exact Token.resolved_of_sequence hTokens

end TimingDiagram
