import TimingDiagram.Proofs.Outcome
import TimingDiagram.Proofs.Wave.Lexing

/-! Tokens written back. Reading a wave loses nothing: its tokens are written as the glyphs they
were read from. With the grammar this says which waves are read, and how any other is refused. -/
namespace TimingDiagram

namespace Token

/-- The characters of a token: its symbol, and its text in brackets if it has one. -/
def write (t : Token) : List Char :=
  match t.text with
  | none => [t.symbol]
  | some text => t.symbol :: '[' :: text.toList ++ [']']

/-- A token is written as its glyph, and only a data token carries a text. -/
theorem write_of_ofGlyph? {before : Option Token} {index : Nat} {g : Glyph}
    {anchor : Option String} {t : Token} (h : ofGlyph? before index g anchor = some t)
    (hValid : g.Valid) : t.write = g.write ∧ (t.text ≠ none → t.tag = .data) := by
  have hPlain (hTag : g.tag ≠ .data) : g.label = none :=
    Option.eq_none_iff_forall_not_mem.mpr fun text hText => hTag (hValid.label text hText).1
  unfold ofGlyph? at h
  split at h
  · rename_i hTag
    obtain ⟨_, _, rfl⟩ := Option.map_eq_some_iff.mp h
    simp [write, Glyph.write, hPlain (by simp [hTag])]
  · rename_i hTag
    split at h <;> cases h <;> simp [write, Glyph.write, hPlain (by simp [hTag])]
  · cases h
    cases hLabel : g.label with
    | none => simp [write, Glyph.write, hLabel]
    | some text => simp [write, Glyph.write, hLabel, (hValid.label text hLabel).1]

/-- There is one token for each entry, written as its glyph. -/
theorem write_of_sequence {before : Option Token} {index : Nat}
    {entries : List (Glyph × Option String)} {tokens : List Token}
    (h : sequence before index entries = .ok tokens) (hValid : ∀ entry ∈ entries, entry.1.Valid) :
    tokens.map write = (entries.map Prod.fst).map Glyph.write ∧
      ∀ t ∈ tokens, t.text ≠ none → t.tag = .data := by
  induction entries generalizing before index tokens with
  | nil =>
      cases h
      simp
  | cons entry rest ih =>
      obtain ⟨g, anchor⟩ := entry
      obtain ⟨t, others, hToken, hRest, rfl⟩ := sequence_cons_eq_ok h
      obtain ⟨hFirst, hEntries⟩ := List.forall_mem_cons.mp hValid
      obtain ⟨hWrite, hText⟩ := write_of_ofGlyph? hToken hFirst
      obtain ⟨hWrites, hTexts⟩ := ih hRest hEntries
      refine ⟨?_, List.forall_mem_cons.mpr ⟨hText, hTexts⟩⟩
      simp only [List.map_cons, hWrite, hWrites]

end Token

open Glyph

variable {wave signal : String} {initial : Option Token}

/-- How a wave without anchors is refused: where it breaks off, at the glyph after the complete
ones; and where it does not, only for a repeat with nothing before it. -/
inductive Unreadable (wave signal : String) (initial : Option Token) : Error → Prop where
  | symbol {gs : List Glyph} {fault : GlyphFault} (breaks : BreaksAfter wave.toList gs fault) :
      Unreadable wave signal initial
        (.invalidSymbol (toString fault.symbol) fault.reason ⟨signal, some gs.length⟩)
  | dangling {gs : List Glyph} {g : Glyph} (valid : ∀ g ∈ gs, g.Valid)
      (spelled : wave.toList = spell gs) (start : gs.head? = some g) (point : g.symbol = '.')
      (alone : initial = none) :
      Unreadable wave signal initial (.danglingRepeat ⟨signal, some 0⟩)

/-- Glyphs that a wave can be read from: they do not open with a repeat, unless a token comes
before them. -/
structure Readable (gs : List Glyph) (initial : Option Token) : Prop where
  valid : ∀ g ∈ gs, g.Valid
  start : initial = none → ∀ g ∈ gs.head?, g.symbol ≠ '.'

theorem readable_or_unreadable (wave signal : String) (initial : Option Token) :
    (∃ gs, Readable gs initial ∧ wave.toList = spell gs) ∨
      ∃ e, Unreadable wave signal initial e := by
  rcases glyphs_cases wave.toList with ⟨gs, _, hValid, hSpell⟩ | ⟨gs, fault, _, hBreak⟩
  · by_cases hStart : initial = none → ∀ g ∈ gs.head?, g.symbol ≠ '.'
    · exact .inl ⟨gs, ⟨hValid, hStart⟩, hSpell⟩
    · push Not at hStart
      obtain ⟨hAlone, g, hHead, hPoint⟩ := hStart
      exact .inr ⟨_, .dangling hValid hSpell hHead hPoint hAlone⟩
  · exact .inr ⟨_, .symbol hBreak⟩

theorem lex_of_unreadable {e : Error} (h : Unreadable wave signal initial e) :
    lex wave .absent signal initial = .error e := by
  cases h with
  | symbol hBreak => exact lex_of_breaksAfter hBreak
  | dangling hValid hSpell hHead hPoint hAlone =>
      have hAgain := (hValid _ (List.mem_of_mem_head? hHead)).again_iff.mpr hPoint
      rw [hAlone]
      exact lex_of_dangling hValid hSpell (NodeSpec.endsAt_absent _) hHead hAgain

/-- A wave without anchors is read exactly when it is spelled by glyphs of which, unless a token
comes before them, the first is no repeat; and otherwise it is refused for the place where it
breaks off, or for that repeat. The tokens are numbered and written one for one as the glyphs, so
that together they give the wave back, and only data tokens carry a text. -/
theorem lex_accepts_grammar (wave signal : String) (initial : Option Token) :
    (Succeeds (lex wave .absent signal initial) ↔
        ∃ gs, Readable gs initial ∧ wave.toList = spell gs) ∧
      (∀ e, lex wave .absent signal initial = .error e ↔ Unreadable wave signal initial e) ∧
      ∀ tokens, lex wave .absent signal initial = .ok tokens →
        ∃ gs, (∀ g ∈ gs, g.Valid) ∧ wave.toList = spell gs ∧
          tokens.map Token.write = gs.map write ∧
          tokens.map Token.index = List.range gs.length ∧
          (∀ t ∈ tokens, t.text ≠ none → t.tag = .data) ∧
          tokens.flatMap Token.write = wave.toList := by
  obtain ⟨hRead, hRefused⟩ := succeeds_iff_and_error_iff
    (readable_or_unreadable wave signal initial)
    (fun ⟨_, hReadable, hSpell⟩ =>
      lex_of_start hReadable.valid hSpell (NodeSpec.endsAt_absent _) hReadable.start)
    fun _ => lex_of_unreadable
  refine ⟨hRead, hRefused, fun tokens hTokens => ?_⟩
  obtain ⟨gs, hValid, hSpell, _, hSequence⟩ := lex_eq_ok hTokens
  obtain ⟨hWrites, hTexts⟩ := Token.write_of_sequence hSequence (valid_of_mem_entriesOf hValid)
  rw [map_fst_entriesOf] at hWrites
  have hIndices : tokens.map Token.index = List.range gs.length := by
    rw [lex_numbered hTokens, lex_length hTokens hValid hSpell, List.range_eq_range']
  have hBack : tokens.flatMap Token.write = wave.toList := by
    rw [List.flatMap_def, hWrites, ← List.flatMap_def, hSpell, spell]
  exact ⟨gs, hValid, hSpell, hWrites, hIndices, hTexts, hBack⟩

/-- A label may hold any symbol. One that is not closed is told by the number of glyphs before
it. -/
theorem lex_accepts_grammar_label :
    (∃ tokens, lex "0=[.[]" .absent "bus" none = .ok tokens ∧
        tokens.flatMap Token.write = "0=[.[]".toList) ∧
      lex "0=[.[" .absent "bus" none =
        .error (.invalidSymbol "[" "Unterminated inline label" ⟨"bus", some 1⟩) := by
  have hLow : Glyph.Valid ⟨'0', .low, none⟩ := ⟨rfl, by simp⟩
  have hBox : Glyph.Valid ⟨'=', .data, some ['.', '[']⟩ := ⟨rfl, by simp⟩
  constructor
  · obtain ⟨hRead, _, hTokens⟩ := lex_accepts_grammar "0=[.[]" "bus" none
    obtain ⟨tokens, hOk⟩ := hRead.mpr
      ⟨[⟨'0', .low, none⟩, ⟨'=', .data, some ['.', '[']⟩], ⟨by simp [hLow, hBox], by simp⟩,
        by decide⟩
    obtain ⟨_, _, _, _, _, _, hBack⟩ := hTokens tokens hOk
    exact ⟨tokens, hOk, hBack⟩
  · obtain ⟨_, hRefused, _⟩ := lex_accepts_grammar "0=[.[" "bus" none
    have hOpen : NoGlyph ['=', '[', '.', '['] .openLabel := .openLabel rfl (by decide)
    have hBreak : BreaksAfter "0=[.[".toList [⟨'0', .low, none⟩] .openLabel :=
      ⟨by simp [hLow], ['=', '[', '.', '['], by decide, by simp [EndsBefore], hOpen⟩
    exact (hRefused _).mpr (.symbol hBreak)

end TimingDiagram
