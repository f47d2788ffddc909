import Mathlib.Data.List.Basic
import Mathlib.Data.List.TakeWhile
import Mathlib.Tactic.IntervalCases
import TimingDiagram.Wave.Glyph

/-! The grammar of waves. A wave is read exactly when it is a sequence of glyphs, and
otherwise reading reports how many glyphs come before the first place where none starts. -/
namespace TimingDiagram

/-- The label of a bracket ends at the first closing bracket. -/
theorem labelBody_eq_some_iff {cs label rest : List Char} :
    labelBody cs = some (label, rest) ↔ cs = label ++ ']' :: rest ∧ ']' ∉ label := by
  unfold labelBody
  constructor
  · intro h
    have hSplit := List.takeWhile_append_dropWhile (p := fun c => decide (c ≠ ']')) (l := cs)
    split at h
    · cases h
    · rename_i last tail hDrop
      simp only [Option.some.injEq, Prod.mk.injEq] at h
      obtain ⟨rfl, rfl⟩ := h
      have hLast : last = ']' := by
        have := List.head?_dropWhile_not (fun c => decide (c ≠ ']')) cs
        rw [hDrop] at this
        simpa using this
      subst hLast
      refine ⟨by rw [hDrop] at hSplit; exact hSplit.symm, fun hm => ?_⟩
      have := List.mem_takeWhile_imp hm
      simp at this
  · rintro ⟨rfl, hLabel⟩
    have hAll : ∀ c ∈ label, decide (c ≠ ']') = true := fun c hc =>
      decide_eq_true fun he => hLabel (he ▸ hc)
    rw [List.dropWhile_append_of_pos hAll, List.takeWhile_append_of_pos hAll]
    simp

theorem labelBody_eq_none_iff {cs : List Char} : labelBody cs = none ↔ ']' ∉ cs := by
  unfold labelBody
  constructor
  · intro h
    split at h
    · rename_i hDrop
      intro hm
      have := List.dropWhile_eq_nil_iff.mp hDrop _ hm
      simp at this
    · cases h
  · intro h
    have hDrop : cs.dropWhile (fun c => decide (c ≠ ']')) = [] :=
      List.dropWhile_eq_nil_iff.mpr fun c hc => decide_eq_true fun he => h (he ▸ hc)
    rw [hDrop]

/-- A repeat is written as a point. -/
theorem Tag.ofSymbol?_eq_again_iff {c : Char} : ofSymbol? c = some .again ↔ c = '.' := by
  constructor
  · intro h
    unfold ofSymbol? at h
    split at h
    case h_14 => rfl
    case h_16 => split at h <;> cases h
    all_goals cases h
  · rintro rfl
    rfl

/-- A break is written as a bar. -/
theorem Tag.ofSymbol?_eq_gap_iff {c : Char} : ofSymbol? c = some .gap ↔ c = '|' := by
  constructor
  · intro h
    unfold ofSymbol? at h
    split at h
    case h_15 => rfl
    case h_16 => split at h <;> cases h
    all_goals cases h
  · rintro rfl
    rfl

/-- Points and bars are the symbols that continue a state. -/
theorem Tag.isContinuation_of_ofSymbol? {c : Char} {tag : Tag} (h : ofSymbol? c = some tag) :
    tag.isContinuation = (c = '.' || c = '|') := by
  simp only [← ofSymbol?_eq_again_iff, ← ofSymbol?_eq_gap_iff, h, Option.some.injEq]
  cases tag <;> decide

/-- The symbols that a box is written with. -/
def Tag.boxSymbols : List Char := ['=', '2', '3', '4', '5', '6', '7', '8', '9']

theorem Tag.mem_boxSymbols {c : Char} (h : ofSymbol? c = some .data) : c ∈ boxSymbols := by
  unfold ofSymbol? at h
  split at h
  case h_9 => decide
  case h_16 =>
      split at h
      · rename_i hDigit
        have hBounds : 50 ≤ c.toNat ∧ c.toNat ≤ 57 := by
          simpa [Char.le_def, UInt32.le_iff_toNat_le] using hDigit
        rw [← Char.ofNat_toNat c]
        generalize c.toNat = n at hBounds
        obtain ⟨hLow, hHigh⟩ := hBounds
        interval_cases n <;> decide
      · cases h
  all_goals cases h

namespace Glyph

/-- A unit of a wave: a symbol with its meaning. Only a data symbol has a label, and no
label holds a closing bracket. -/
structure Valid (g : Glyph) : Prop where
  symbol : Tag.ofSymbol? g.symbol = some g.tag
  label : ∀ text ∈ g.label, g.tag = .data ∧ ']' ∉ text

instance (g : Glyph) : Decidable g.Valid :=
  decidable_of_iff (Tag.ofSymbol? g.symbol = some g.tag ∧
      ∀ text ∈ g.label, g.tag = .data ∧ ']' ∉ text)
    ⟨fun h => ⟨h.1, h.2⟩, fun h => ⟨h.symbol, h.label⟩⟩

/-- The characters of some glyphs, one after another. -/
def spell (gs : List Glyph) : List Char := gs.flatMap write

/-- What follows a glyph does not belong to it: a data symbol without a label is not
followed by a bracket. -/
def EndsBefore (g : Glyph) (rest : List Char) : Prop :=
  g.tag = .data → g.label = none → rest.head? ≠ some '['

/-- Why no glyph starts a text that is not empty. -/
inductive NoGlyph : List Char → GlyphFault → Prop where
  | unknownSymbol {c : Char} {rest : List Char}
      (unknown : Tag.ofSymbol? c = none) (other : c ≠ '[') :
      NoGlyph (c :: rest) (.unknownSymbol c)
  | strayLabel {rest : List Char} : NoGlyph ('[' :: rest) .strayLabel
  | openLabel {c : Char} {body : List Char}
      (data : Tag.ofSymbol? c = some .data) (unclosed : ']' ∉ body) :
      NoGlyph (c :: '[' :: body) .openLabel

/-- A wave breaks off after some glyphs: what is left is no label of the last of them,
and no glyph starts it. -/
structure BreaksAfter (cs : List Char) (gs : List Glyph) (fault : GlyphFault) : Prop where
  valid : ∀ g ∈ gs, g.Valid
  rest : ∃ rest, cs = spell gs ++ rest ∧ (∀ g ∈ gs.getLast?, g.EndsBefore rest) ∧
    NoGlyph rest fault

theorem Valid.again_iff {g : Glyph} (h : g.Valid) : g.tag = .again ↔ g.symbol = '.' := by
  rw [← Tag.ofSymbol?_eq_again_iff, h.symbol, Option.some.injEq]

@[simp] theorem spell_nil : spell [] = [] := rfl

@[simp] theorem spell_cons (g : Glyph) (gs : List Glyph) :
    spell (g :: gs) = g.write ++ spell gs := rfl

theorem spell_append (gs more : List Glyph) : spell (gs ++ more) = spell gs ++ spell more :=
  List.flatMap_append

theorem ofSymbol?_bracket : Tag.ofSymbol? '[' = none := by decide

theorem Valid.symbol_ne_bracket {g : Glyph} (h : g.Valid) : g.symbol ≠ '[' := by
  intro he
  have := h.symbol
  rw [he, ofSymbol?_bracket] at this
  cases this

theorem write_eq_cons (g : Glyph) : ∃ tail, g.write = g.symbol :: tail := by
  unfold write
  cases g.label <;> exact ⟨_, rfl⟩

/-- A glyph that is read is valid, is written as it was read, and ends where the rest
begins. -/
theorem read_eq_ok {c : Char} {cs rest : List Char} {g : Glyph}
    (h : read c cs = .ok (g, rest)) :
    g.Valid ∧ c :: cs = g.write ++ rest ∧ g.EndsBefore rest := by
  unfold read at h
  split at h
  · cases h
  · rename_i hData
    split at h
    · rename_i body
      split at h
      · rename_i label tail hBody
        cases h
        obtain ⟨rfl, hLabel⟩ := labelBody_eq_some_iff.mp hBody
        exact ⟨⟨hData, by simpa using hLabel⟩, by simp [write], by simp [EndsBefore]⟩
      · cases h
    · rename_i hOpen
      cases h
      refine ⟨⟨hData, by simp⟩, by simp [write], fun _ _ hHead => ?_⟩
      obtain ⟨body, hCons⟩ := List.head?_eq_some_iff.mp hHead
      exact hOpen body hCons
  · rename_i tag hNotData hTag
    cases h
    exact ⟨⟨hTag, by simp⟩, by simp [write], fun hData => absurd hData (by simpa using hNotData)⟩

/-- Reading fails exactly where no glyph starts. -/
theorem read_eq_error_iff {c : Char} {cs : List Char} {fault : GlyphFault} :
    read c cs = .error fault ↔ NoGlyph (c :: cs) fault := by
  constructor
  · intro h
    unfold read at h
    split at h
    · rename_i hUnknown
      cases h
      split_ifs with hc
      · exact hc ▸ .strayLabel
      · exact .unknownSymbol hUnknown hc
    · rename_i hData
      split at h
      · split at h
        · cases h
        · rename_i hBody
          cases h
          exact .openLabel hData (labelBody_eq_none_iff.mp hBody)
      · cases h
    · cases h
  · intro h
    cases h with
    | unknownSymbol unknown other => simp [read, unknown, other]
    | strayLabel => simp [read, ofSymbol?_bracket]
    | openLabel data unclosed => simp [read, data, labelBody_eq_none_iff.mpr unclosed]

/-- A valid glyph is read off its characters when what follows does not belong to it. -/
theorem read_write {g : Glyph} {rest : List Char} (hValid : g.Valid) (hEnd : g.EndsBefore rest) :
    ∃ tail, g.write ++ rest = g.symbol :: tail ∧ read g.symbol tail = .ok (g, rest) := by
  obtain ⟨symbol, tag, label⟩ := g
  have hTag := hValid.symbol
  simp only at hTag
  cases label with
  | some text =>
      obtain ⟨hData, hText⟩ := hValid.label text rfl
      simp only at hData
      subst hData
      refine ⟨'[' :: text ++ ']' :: rest, by simp [write], ?_⟩
      have hBody : labelBody (text ++ ']' :: rest) = some (text, rest) :=
        labelBody_eq_some_iff.mpr ⟨rfl, hText⟩
      simp [read, hTag, hBody]
  | none =>
      refine ⟨rest, by simp [write], ?_⟩
      unfold read
      split
      · simp_all
      · rename_i hData
        have he : tag = .data := by simpa [hTag] using hData
        subst he
        split
        · rename_i body
          exact absurd rfl (hEnd rfl rfl)
        · rfl
      · rename_i other _ hOther
        have he : tag = other := by simpa [hTag] using hOther
        rw [he]

end Glyph

open Glyph

theorem glyphs_of_noGlyph {cs : List Char} {fault : GlyphFault} (h : NoGlyph cs fault) :
    glyphs cs = .error (0, fault) := by
  obtain ⟨c, tail, rfl⟩ : ∃ c tail, cs = c :: tail := by
    cases h <;> exact ⟨_, _, rfl⟩
  have hRead := read_eq_error_iff.mpr h
  rw [glyphs]
  split
  · rename_i hError
    rw [hRead] at hError
    cases hError
    rfl
  · rename_i hOk
    rw [hRead] at hOk
    cases hOk

theorem glyphs_write {g : Glyph} {rest : List Char} (hValid : g.Valid) (hEnd : g.EndsBefore rest) :
    glyphs (g.write ++ rest) =
      match glyphs rest with
      | .ok gs => .ok (g :: gs)
      | .error (n, fault) => .error (n + 1, fault) := by
  obtain ⟨tail, hCons, hRead⟩ := read_write hValid hEnd
  rw [hCons, glyphs]
  split
  · rename_i hError
    rw [hRead] at hError
    cases hError
  · rename_i hOk
    rw [hRead] at hOk
    cases hOk
    rfl

/-- Reading goes on after all glyphs that a text starts with. -/
theorem glyphs_spell_append {gs : List Glyph} {rest : List Char} (hValid : ∀ g ∈ gs, g.Valid)
    (hEnd : ∀ g ∈ gs.getLast?, g.EndsBefore rest) :
    glyphs (spell gs ++ rest) =
      match glyphs rest with
      | .ok more => .ok (gs ++ more)
      | .error (n, fault) => .error (gs.length + n, fault) := by
  induction gs with
  | nil =>
      simp only [spell_nil, List.nil_append, List.length_nil, Nat.zero_add]
      split <;> simp_all
  | cons g gs ih =>
      have hRest : ∀ g ∈ gs, g.Valid := fun g hg => hValid g (List.mem_cons_of_mem _ hg)
      have hNext : g.EndsBefore (spell gs ++ rest) := by
        intro hData hLabel
        cases gs with
        | nil => exact hEnd g (by simp) hData hLabel
        | cons next gs =>
            obtain ⟨tail, hWrite⟩ := write_eq_cons next
            simpa [hWrite] using (hRest next (by simp)).symbol_ne_bracket
      have hLast : ∀ g ∈ gs.getLast?, g.EndsBefore rest := fun last hMem =>
        hEnd last (List.mem_getLast?_cons hMem)
      rw [spell_cons, List.append_assoc, glyphs_write (hValid g (by simp)) hNext, ih hRest hLast]
      cases glyphs rest with
      | ok more => rfl
      | error e => simp only [List.length_cons]; congr 2; omega

theorem Glyph.BreaksAfter.cons {cs : List Char} {g : Glyph} {gs : List Glyph} {fault : GlyphFault}
    (h : BreaksAfter cs gs fault) (hValid : g.Valid) (hEnd : g.EndsBefore cs) :
    BreaksAfter (g.write ++ cs) (g :: gs) fault := by
  obtain ⟨hRest, rest, hSpell, hLast, hNone⟩ := h
  refine ⟨by simpa using ⟨hValid, hRest⟩, rest, by rw [hSpell]; simp, ?_, hNone⟩
  cases gs with
  | nil =>
      rw [spell_nil, List.nil_append] at hSpell
      simpa [hSpell] using hEnd
  | cons next gs => simpa using hLast

/-- Every wave is spelled by glyphs or breaks off after some, and reading tells which. -/
theorem glyphs_cases (cs : List Char) :
    (∃ gs, glyphs cs = .ok gs ∧ (∀ g ∈ gs, g.Valid) ∧ cs = spell gs) ∨
      ∃ gs fault, glyphs cs = .error (gs.length, fault) ∧ BreaksAfter cs gs fault := by
  induction cs using glyphs.induct with
  | case1 => exact .inl ⟨[], by simp [glyphs]⟩
  | case2 c rest fault hRead =>
      have hNone := read_eq_error_iff.mp hRead
      exact .inr ⟨[], fault, glyphs_of_noGlyph hNone, by simp, c :: rest, rfl, by simp, hNone⟩
  | case3 c rest g tail hRead gs hTail ih =>
      obtain ⟨hValid, hWrite, hEnd⟩ := read_eq_ok hRead
      rcases ih with ⟨gs', hOk, hRest, hSpell⟩ | ⟨gs', fault, hError, _⟩
      · refine .inl ⟨g :: gs', ?_, by simpa using ⟨hValid, hRest⟩, ?_⟩
        · rw [hWrite, glyphs_write hValid hEnd, hOk]
        · rw [hWrite, spell_cons, ← hSpell]
      · rw [hTail] at hError
        cases hError
  | case4 c rest g tail hRead n fault hTail ih =>
      obtain ⟨hValid, hWrite, hEnd⟩ := read_eq_ok hRead
      rcases ih with ⟨gs', hOk, _⟩ | ⟨gs', fault', hError, hBreak⟩
      · rw [hTail] at hOk
        cases hOk
      · refine .inr ⟨g :: gs', fault', ?_, ?_⟩
        · rw [hWrite, glyphs_write hValid hEnd, hError]
          rfl
        · rw [hWrite]
          exact hBreak.cons hValid hEnd

/-- Reading gives some glyphs exactly when the wave is spelled by them. -/
theorem glyphs_eq_ok_iff {cs : List Char} {gs : List Glyph} :
    glyphs cs = .ok gs ↔ (∀ g ∈ gs, g.Valid) ∧ cs = spell gs := by
  constructor
  · intro h
    rcases glyphs_cases cs with ⟨gs', hOk, hSpell⟩ | ⟨gs', fault, hError, _⟩
    · rw [hOk] at h
      cases h
      exact hSpell
    · rw [hError] at h
      cases h
  · rintro ⟨hValid, rfl⟩
    have hEnd : ∀ g ∈ gs.getLast?, g.EndsBefore [] := fun _ _ _ _ => by simp
    simpa [glyphs] using glyphs_spell_append hValid hEnd

/-- Reading fails exactly when the wave breaks off, and tells after how many glyphs. -/
theorem glyphs_eq_error_iff {cs : List Char} {n : Nat} {fault : GlyphFault} :
    glyphs cs = .error (n, fault) ↔ ∃ gs, gs.length = n ∧ BreaksAfter cs gs fault := by
  constructor
  · intro h
    rcases glyphs_cases cs with ⟨gs, hOk, _⟩ | ⟨gs, fault', hError, hBreak⟩
    · rw [hOk] at h
      cases h
    · rw [hError] at h
      cases h
      exact ⟨gs, rfl, hBreak⟩
  · rintro ⟨gs, rfl, hValid, rest, rfl, hEnd, hNone⟩
    rw [glyphs_spell_append hValid hEnd, glyphs_of_noGlyph hNone]
    rfl

end TimingDiagram
