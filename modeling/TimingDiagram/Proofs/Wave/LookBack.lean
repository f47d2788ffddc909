import TimingDiagram.Proofs.Wave.Lexing

/-! What reading looks back at. A token is read with the state of the token before it and with nothing
else of what comes earlier. So a wave may be read in parts, each from the last token of the one before
it, and every symbol stands for the nearest symbol up to it that continues nothing. -/
namespace TimingDiagram

namespace Token

/-- What the next token may take over: what a token stands for, and its colour. -/
def state (t : Token) : Tag × Int := (t.resolved, t.color)

/-- The token at a place so many symbols later. -/
def later (count : Nat) (t : Token) : Token := { t with index := t.index + count }

/-- Of the token before it a token takes the state; its place does not matter otherwise. -/
theorem ofGlyph?_later {before other : Option Token} (h : other.map state = before.map state)
    (index count : Nat) (g : Glyph) (anchor : Option String) :
    ofGlyph? other (index + count) g anchor = (ofGlyph? before index g anchor).map (later count) := by
  cases before with
  | none =>
      obtain rfl : other = none := by simpa using h
      unfold ofGlyph?
      cases g.tag <;> rfl
  | some t =>
      obtain ⟨u, rfl, hState⟩ := Option.map_eq_some_iff.mp h
      obtain ⟨hResolved, hColor⟩ := Prod.mk.inj hState
      unfold ofGlyph?
      simp only [Option.map_some, hResolved, hColor]
      cases g.tag <;> rfl

/-- What is read after a token is told by the state of that token, wherever it stands. -/
theorem sequence_later {before other : Option Token} (hState : other.map state = before.map state)
    {index : Nat} {entries : List (Glyph × Option String)} {tokens : List Token}
    (h : sequence before index entries = .ok tokens) (count : Nat) :
    sequence other (index + count) entries = .ok (tokens.map (later count)) := by
  induction entries generalizing before other index tokens with
  | nil =>
      cases h
      rfl
  | cons entry rest ih =>
      obtain ⟨g, anchor⟩ := entry
      obtain ⟨t, others, hToken, hRest, rfl⟩ := sequence_cons_eq_ok h
      have hSame : (some (t.later count)).map state = (some t).map state := rfl
      have hLater := ih hSame hRest
      rw [sequence, ofGlyph?_later hState, hToken, Option.map_some]
      simp only [Nat.add_right_comm index count 1, hLater]
      rfl

end Token

open Glyph

/-- A wave may be read in two parts, the second from the last token of the first. Together they have
the tokens of the first and then those of the second, which only stand so many places later. -/
theorem lex_append {first second signal : String} {initial : Option Token}
    {before after : List Token} {last : Token}
    (hFirst : lex first .absent signal initial = .ok before) (hLast : before.getLast? = some last)
    (hSecond : lex second .absent signal (some last) = .ok after) :
    lex (first ++ second) .absent signal initial =
      .ok (before ++ after.map (Token.later before.length)) := by
  obtain ⟨gs, hValid, hSpell, _, hTokens⟩ := lex_eq_ok hFirst
  obtain ⟨more, hMore, hSpellMore, _, hRest⟩ := lex_eq_ok hSecond
  have hAll : ∀ g ∈ gs ++ more, g.Valid := List.forall_mem_append.mpr ⟨hValid, hMore⟩
  have hWritten : (first ++ second).toList = spell (gs ++ more) := by
    rw [String.toList_append, hSpell, hSpellMore, spell_append]
  have hEntries : entriesOf .absent (gs ++ more) =
      entriesOf .absent gs ++ entriesOf .absent more := by
    rw [entriesOf_absent, List.map_append, ← entriesOf_absent, ← entriesOf_absent]
  have hLength : (entriesOf .absent gs).length = before.length := by
    rw [entriesOf_absent, List.length_map, lex_length hFirst hValid hSpell]
  have hLater := Token.sequence_later rfl hRest before.length
  rw [lex_of_endsAt hAll hWritten (NodeSpec.endsAt_absent _), hEntries,
    Token.sequence_append hTokens, hLast, Option.some_or, hLength, hLater]
  rfl

set_option maxRecDepth 10000 in
/-- The second part goes on with the box that the first one ends with, its colour and all. -/
theorem lex_append_box :
    ∃ before after last, lex "04[A]" .absent "bus" none = .ok before ∧
      before.getLast? = some last ∧ lex ".|1" .absent "bus" (some last) = .ok after ∧
      lex "04[A].|1" .absent "bus" none = .ok (before ++ after.map (Token.later 2)) := by
  let box : Token := ⟨1, '4', .data, .data, some .low, 4, some "A", none⟩
  have hFirst : lex "04[A]" .absent "bus" none =
      .ok [⟨0, '0', .low, .low, none, 0, none, none⟩, box] := by
    let gs : List Glyph := [⟨'0', .low, none⟩, ⟨'4', .data, some ['A']⟩]
    have hValid : ∀ g ∈ gs, g.Valid := by decide
    have hSpell : "04[A]".toList = spell gs := by decide
    rw [lex_of_endsAt hValid hSpell (NodeSpec.endsAt_absent _)]
    rfl
  have hSecond : lex ".|1" .absent "bus" (some box) = .ok
      [⟨0, '.', .again, .data, some .data, 4, none, none⟩,
        ⟨1, '|', .gap, .data, some .data, 4, none, none⟩,
        ⟨2, '1', .high, .high, some .data, 0, none, none⟩] := by cbv
  exact ⟨_, _, box, hFirst, rfl, hSecond, lex_append hFirst rfl hSecond⟩

namespace Token

/-- The colour of a symbol: a digit names its own, a box without one has that of '2', and what is no
box has none. -/
def paint : Char → Int
  | '=' | '2' => 2
  | '3' => 3
  | '4' => 4
  | '5' => 5
  | '6' => 6
  | '7' => 7
  | '8' => 8
  | '9' => 9
  | _ => 0

/-- Whether a token has a symbol of its own, one that continues nothing. -/
def isExplicit (t : Token) : Bool := t.symbol ≠ '.' && t.symbol ≠ '|'

/-- The last explicit one of the first `count` tokens. -/
def lastExplicit? (tokens : List Token) (count : Nat) : Option Token :=
  (tokens.take count).reverse.find? isExplicit

/-- The token before a place; before the first one it is the one that the wave goes on from. -/
def tokenBefore (initial : Option Token) (tokens : List Token) : Nat → Option Token
  | 0 => initial
  | i + 1 => tokens[i]?

/-- What the first `count` tokens of a wave come to: what the last explicit one of them stands for on
its own, or else what the token before the wave does, or else an undefined state, for which the wave
has to open with a break. -/
inductive ComesTo (initial : Option Token) (tokens : List Token) (count : Nat) : Tag → Int → Prop where
  | explicit {u : Token} (last : lastExplicit? tokens count = some u)
      (means : Tag.ofSymbol? u.symbol = some u.resolved) (painted : u.color = paint u.symbol) :
      ComesTo initial tokens count u.resolved u.color
  | carried {u : Token} (silent : lastExplicit? tokens count = none) (goesOn : initial = some u) :
      ComesTo initial tokens count u.resolved u.color
  | undefined (silent : lastExplicit? tokens count = none) (alone : initial = none)
      (opens : (tokens.map symbol).head? = some '|') : ComesTo initial tokens count .dontCare 0

/-- How a token is read after another: by itself, or with the state of the other, or as a break with
nothing before it. -/
inductive Follows (before : Option Token) (t : Token) : Prop where
  | explicit (own : t.isExplicit = true) (means : Tag.ofSymbol? t.symbol = some t.resolved)
      (painted : t.color = paint t.symbol)
  | carried {u : Token} (continues : t.isExplicit = false) (goesOn : before = some u)
      (state : t.state = u.state)
  | undefined (bar : t.symbol = '|') (alone : before = none) (state : t.state = (.dontCare, 0))

variable {initial before : Option Token} {tokens : List Token} {count i index : Nat} {t : Token}

/-- A valid symbol is painted as it says, and only boxes are painted. -/
theorem paint_eq {c : Char} {tag : Tag} (h : Tag.ofSymbol? c = some tag) :
    (if tag = .data then dataColor c else 0) = paint c := by
  by_cases hData : tag = .data
  · have hDigits : ∀ c ∈ Tag.boxSymbols, dataColor c = paint c :=
      List.forall_iff_forall_mem.mp (by decide)
    rw [if_pos hData, hDigits c (Tag.mem_boxSymbols (hData ▸ h))]
  · rw [if_neg hData]
    unfold paint
    split
    case h_10 => rfl
    all_goals exact absurd (Option.some.inj h).symm hData

theorem isExplicit_eq {tag : Tag} (h : Tag.ofSymbol? t.symbol = some tag) :
    t.isExplicit = !tag.isContinuation := by
  rw [isExplicit, Tag.isContinuation_of_ofSymbol? h]
  simp

theorem follows_of_ofGlyph? {g : Glyph} {anchor : Option String}
    (h : ofGlyph? before index g anchor = some t) (hValid : g.Valid) : t.Follows before := by
  have hSymbol : Tag.ofSymbol? t.symbol = some t.tag := by
    obtain ⟨_, hSame, hTag, _⟩ := of_ofGlyph? h
    rw [hSame, hTag, hValid.symbol]
  have hExplicit := isExplicit_eq hSymbol
  unfold ofGlyph? at h
  split at h
  · obtain ⟨u, rfl, rfl⟩ := Option.map_eq_some_iff.mp h
    exact .carried hExplicit rfl rfl
  · split at h
    · cases h
      exact .undefined (Tag.ofSymbol?_eq_gap_iff.mp hSymbol) rfl rfl
    · cases h
      exact .carried hExplicit rfl rfl
  · rename_i hAgain hGap
    cases h
    have hOwn : g.tag.isContinuation = false := by
      cases hTag : g.tag <;> simp_all [Tag.isContinuation]
    exact .explicit (hExplicit.trans (by rw [hOwn]; rfl)) hSymbol (paint_eq hSymbol)

theorem previous_of_ofGlyph? {g : Glyph} {anchor : Option String}
    (h : ofGlyph? before index g anchor = some t) : t.previous = before.map resolved := by
  unfold ofGlyph? at h
  split at h
  · obtain ⟨u, rfl, rfl⟩ := Option.map_eq_some_iff.mp h
    rfl
  · split at h <;> cases h <;> rfl
  · cases h
    rfl

/-- Every token of a sequence is read off its entry after the token before it. -/
theorem exists_ofGlyph?_of_sequence {entries : List (Glyph × Option String)}
    (h : sequence before index entries = .ok tokens) (ht : tokens[i]? = some t) :
    ∃ entry, entries[i]? = some entry ∧
      ofGlyph? (tokenBefore before tokens i) (index + i) entry.1 entry.2 = some t := by
  induction entries generalizing before index tokens i with
  | nil =>
      cases h
      simp at ht
  | cons entry rest ih =>
      obtain ⟨g, anchor⟩ := entry
      obtain ⟨first, others, hToken, hRest, rfl⟩ := sequence_cons_eq_ok h
      cases i with
      | zero =>
          cases ht
          exact ⟨(g, anchor), rfl, hToken⟩
      | succ i =>
          obtain ⟨entry, hEntry, hRead⟩ := ih hRest ht
          have hSame : tokenBefore before (first :: others) (i + 1) =
              tokenBefore (some first) others i := by cases i <;> rfl
          refine ⟨entry, hEntry, ?_⟩
          rw [hSame, ← Nat.add_assoc, Nat.add_right_comm]
          exact hRead

theorem lastExplicit?_zero (tokens : List Token) : lastExplicit? tokens 0 = none := rfl

theorem lastExplicit?_succ (ht : tokens[i]? = some t) :
    lastExplicit? tokens (i + 1) = if t.isExplicit then some t else lastExplicit? tokens i := by
  rw [lastExplicit?, List.take_add_one, ht, Option.toList_some, List.reverse_append,
    List.reverse_singleton, List.singleton_append, List.find?_cons, lastExplicit?]
  cases t.isExplicit <;> rfl

/-- Symbols that continue a state leave it as it is. -/
theorem ComesTo.congr {more : Nat} {tag : Tag} {color : Int} (h : ComesTo initial tokens count tag color)
    (hSame : lastExplicit? tokens more = lastExplicit? tokens count) :
    ComesTo initial tokens more tag color := by
  cases h with
  | explicit last means painted => exact .explicit (hSame.trans last) means painted
  | carried silent goesOn => exact .carried (hSame.trans silent) goesOn
  | undefined silent alone opens => exact .undefined (hSame.trans silent) alone opens

/-- One token more: it stands for itself, or for what the token before it does. -/
theorem ComesTo.step (ht : tokens[i]? = some t) (hFollows : t.Follows (tokenBefore initial tokens i))
    (hBefore : ∀ u ∈ tokenBefore initial tokens i, ComesTo initial tokens i u.resolved u.color) :
    ComesTo initial tokens (i + 1) t.resolved t.color := by
  have hLast := lastExplicit?_succ ht
  cases hFollows with
  | explicit own means painted => exact .explicit (by rw [hLast, if_pos own]) means painted
  | carried continues goesOn state =>
      obtain ⟨hResolved, hColor⟩ := Prod.mk.inj state
      rw [hResolved, hColor]
      exact (hBefore _ goesOn).congr (by rw [hLast, continues, if_neg Bool.false_ne_true])
  | undefined bar alone state =>
      obtain ⟨hResolved, hColor⟩ := Prod.mk.inj state
      rw [hResolved, hColor]
      cases i with
      | zero =>
          have hOwn : t.isExplicit = false := by simp [isExplicit, bar]
          have hSilent : lastExplicit? tokens 1 = none := by
            rw [hLast, hOwn, if_neg Bool.false_ne_true, lastExplicit?_zero]
          exact .undefined hSilent alone (by rw [List.head?_map, List.head?_eq_getElem?, ht,
            Option.map_some, bar])
      | succ i =>
          have hEnd : tokens.length ≤ i := List.getElem?_eq_none_iff.mp alone
          rw [List.getElem?_eq_none (by omega)] at ht
          cases ht

/-- Where every token follows the one before it, the state before a place is that of the nearest
explicit symbol before it. -/
theorem comesTo_of_follows
    (h : ∀ (i : Nat) (t : Token), tokens[i]? = some t → t.Follows (tokenBefore initial tokens i))
    (i : Nat) : ∀ u ∈ tokenBefore initial tokens i, ComesTo initial tokens i u.resolved u.color := by
  induction i with
  | zero => exact fun u hu => .carried (lastExplicit?_zero tokens) hu
  | succ i ih => exact fun t ht => ComesTo.step ht (h i t ht) ih

/-- A state that only continues another comes from before the wave. -/
theorem ComesTo.of_isContinuation {tag : Tag} {color : Int}
    (h : ComesTo initial tokens count tag color) (hTag : tag.isContinuation = true) :
    ∃ u ∈ initial, u.resolved.isContinuation = true := by
  cases h with
  | explicit last means painted =>
      have hOwn := isExplicit_eq means
      rw [List.find?_some last, hTag] at hOwn
      cases hOwn
  | carried silent goesOn => exact ⟨_, goesOn, hTag⟩
  | undefined silent alone opens => cases hTag

end Token

/-- The first token has the first symbol of the wave. -/
theorem lex_head? {wave signal : String} {node : NodeSpec} {initial : Option Token}
    {tokens : List Token} (h : lex wave node signal initial = .ok tokens) :
    (tokens.map Token.symbol).head? = wave.toList.head? := by
  obtain ⟨gs, hValid, hSpell, _, hTokens⟩ := lex_eq_ok h
  have hLength := lex_length h hValid hSpell
  cases tokens with
  | nil =>
      rw [hSpell, List.length_eq_zero_iff.mp hLength.symm]
      rfl
  | cons t rest =>
      obtain ⟨entry, hEntry, hRead⟩ := Token.exists_ofGlyph?_of_sequence (i := 0) hTokens rfl
      cases gs with
      | nil => cases hEntry
      | cons g gs =>
          have hGlyph : entry.1 = g := by
            have := congrArg (Option.map Prod.fst) hEntry
            rw [← List.getElem?_map, map_fst_entriesOf] at this
            exact (Option.some.inj this).symm
          obtain ⟨tail, hWrite⟩ := write_eq_cons g
          rw [hSpell, spell_cons, hWrite, List.map_cons, List.head?_cons, (Token.of_ofGlyph? hRead).2.1,
            hGlyph]
          rfl

/-- Every token stands for the nearest explicit symbol up to it, in the colour of that symbol; without
one it stands for what the token before the wave does, and without that for an undefined state, as the
wave opens with a break then. What the token before it stood for is kept as well. No token stands for
a continuation, unless the one before the wave did. -/
theorem lex_comesTo {wave signal : String} {node : NodeSpec} {initial : Option Token}
    {tokens : List Token} (h : lex wave node signal initial = .ok tokens) :
    (∀ (i : Nat) (t : Token), tokens[i]? = some t →
        Token.ComesTo initial tokens (i + 1) t.resolved t.color ∧
          t.previous = (Token.tokenBefore initial tokens i).map Token.resolved) ∧
      (∀ t ∈ tokens, t.resolved.isContinuation = true →
        ∃ u ∈ initial, u.resolved.isContinuation = true) ∧
      (tokens.map Token.symbol).head? = wave.toList.head? := by
  obtain ⟨gs, hValid, _, _, hTokens⟩ := lex_eq_ok h
  have hFollows : ∀ (i : Nat) (t : Token), tokens[i]? = some t →
      t.Follows (Token.tokenBefore initial tokens i) := by
    intro i t ht
    obtain ⟨entry, hEntry, hRead⟩ := Token.exists_ofGlyph?_of_sequence hTokens ht
    exact Token.follows_of_ofGlyph? hRead
      (valid_of_mem_entriesOf hValid entry (List.mem_of_getElem? hEntry))
  have hStates := Token.comesTo_of_follows hFollows
  refine ⟨fun i t ht => ⟨hStates (i + 1) t ht, ?_⟩, fun t hMem hTag => ?_, lex_head? h⟩
  · obtain ⟨_, _, hRead⟩ := Token.exists_ofGlyph?_of_sequence hTokens ht
    exact Token.previous_of_ofGlyph? hRead
  · obtain ⟨i, ht⟩ := List.mem_iff_getElem?.mp hMem
    exact (hStates (i + 1) t ht).of_isContinuation hTag

/-- A break before any symbol is undefined, also for the repeat after it; one after a box goes on with
the box. -/
theorem lex_comesTo_breaks :
    let tokens : List Token := [⟨0, '|', .gap, .dontCare, none, 0, none, none⟩,
      ⟨1, '.', .again, .dontCare, some .dontCare, 0, none, none⟩,
      ⟨2, '4', .data, .data, some .dontCare, 4, none, none⟩,
      ⟨3, '|', .gap, .data, some .data, 4, none, none⟩]
    lex "|.4|" .absent "bus" none = .ok tokens ∧ Token.ComesTo none tokens 2 .dontCare 0 ∧
      Token.ComesTo none tokens 4 .data 4 := by
  intro tokens
  have hTokens : lex "|.4|" .absent "bus" none = .ok tokens := by
    let gs : List Glyph := [⟨'|', .gap, none⟩, ⟨'.', .again, none⟩, ⟨'4', .data, none⟩,
      ⟨'|', .gap, none⟩]
    have hValid : ∀ g ∈ gs, g.Valid := by decide
    have hSpell : "|.4|".toList = spell gs := by decide
    rw [lex_of_endsAt hValid hSpell (NodeSpec.endsAt_absent _)]
    rfl
  obtain ⟨hStates, _⟩ := lex_comesTo hTokens
  exact ⟨hTokens, (hStates 1 _ rfl).1, (hStates 3 _ rfl).1⟩

end TimingDiagram
