import TimingDiagram.Proofs.Text.Runs

/-! The grammar of markup. A text can be taken apart into tags, their attributes and the runs of text
between them in one way at most. -/
namespace TimingDiagram.Markup

/-- The characters between the parts of a tag. -/
def isSpace (c : Char) : Bool := c ∈ [' ', '\t', '\n', '\r']

/-- The characters of names: all but those that a name can be followed by. -/
def isNameChar (c : Char) : Bool := !isSpace c && c ∉ ['<', '>', '/', '=', '\x22', '\x27']

/-- An attribute as it is written, from the space before it to the quote at its end. The value has its
entities. -/
structure Attribute where
  lead : List Char
  name : List Char
  quote : Char
  raw : List Char

/-- A piece of markup as it is written. -/
inductive Piece where
  /-- A run of text with its entities. -/
  | text (raw : List Char)
  /-- An element with one tag, and the space at the end of it. -/
  | single (name : List Char) (attributes : List Attribute) (tail : List Char)
  /-- An element with a start tag and an end tag around what it holds. -/
  | element (name : List Char) (attributes : List Attribute) (tail : List Char)
      (pieces : List Piece)

def IsSpaces (cs : List Char) : Prop := ∀ c ∈ cs, isSpace c = true

def IsName (cs : List Char) : Prop := cs ≠ [] ∧ ∀ c ∈ cs, isNameChar c = true

/-- Whether a text is a name. -/
def isName (name : String) : Bool := !name.toList.isEmpty && name.toList.all isNameChar

theorem isName_iff {name : String} : isName name = true ↔ IsName name.toList := by
  simp [isName, IsName]

namespace Attribute

def spell (a : Attribute) : List Char := a.lead ++ (a.name ++ '=' :: a.quote :: (a.raw ++ [a.quote]))

structure WellFormed (a : Attribute) : Prop where
  lead_ne_nil : a.lead ≠ []
  lead_spaces : IsSpaces a.lead
  isName : IsName a.name
  quote_eq : a.quote = '\x22' ∨ a.quote = '\x27'
  /-- A value ends at the quote, and opens no tag. -/
  raw_plain : ∀ c ∈ a.raw, c ≠ a.quote ∧ c ≠ '<'

end Attribute

/-- The tag of an element up to its bracket at the end. -/
def spellTag (name : List Char) (attributes : List Attribute) (tail : List Char) : List Char :=
  '<' :: (name ++ (attributes.flatMap Attribute.spell ++ tail))

structure WellFormedTag (name : List Char) (attributes : List Attribute) (tail : List Char) : Prop where
  isName : IsName name
  attributes_wellFormed : ∀ a ∈ attributes, a.WellFormed
  tail_spaces : IsSpaces tail

mutual

def Piece.spell : Piece → List Char
  | .text raw => raw
  | .single name attributes tail => spellTag name attributes tail ++ ['/', '>']
  | .element name attributes tail pieces =>
    spellTag name attributes tail ++ '>' :: (spellAll pieces ++ '<' :: '/' :: (name ++ ['>']))

def spellAll : List Piece → List Char
  | [] => []
  | piece :: rest => piece.spell ++ spellAll rest

end

def Piece.isText : Piece → Bool
  | .text _ => true
  | _ => false

mutual

/-- A piece that the grammar has. Two runs of text are never next to each other, and none is empty. -/
def Piece.WellFormed : Piece → Prop
  | .text raw => raw ≠ [] ∧ ∀ c ∈ raw, c ≠ '<'
  | .single name attributes tail => WellFormedTag name attributes tail
  | .element name attributes tail pieces =>
    WellFormedTag name attributes tail ∧ WellFormedAll pieces

def WellFormedAll : List Piece → Prop
  | [] => True
  | piece :: rest =>
    piece.WellFormed ∧ (piece.isText = true → rest.head?.any Piece.isText = false) ∧
      WellFormedAll rest

end

variable {r s : List Char}

theorem opens_of_isName {name : List Char} (h : IsName name) (r : List Char) :
    Text.opens isSpace (name ++ r) = false :=
  Text.opens_append_of_ne_nil h.1 fun c hc => by
    have := h.2 c hc
    simp only [isNameChar, Bool.and_eq_true, Bool.not_eq_true'] at this
    exact this.1

theorem not_isNameChar_of_isSpace {c : Char} (h : isSpace c = true) : isNameChar c = false := by
  simp [isNameChar, h]

/-- An attribute ends with its second quote. -/
theorem Attribute.spell_inj {a b : Attribute} (ha : a.WellFormed) (hb : b.WellFormed)
    (h : a.spell ++ r = b.spell ++ s) : a = b ∧ r = s := by
  obtain ⟨lead, name, quote, raw⟩ := a
  obtain ⟨lead', name', quote', raw'⟩ := b
  simp only [Attribute.spell, List.append_assoc, List.cons_append] at h
  obtain ⟨hLead, hNames⟩ := Text.run_inj ha.lead_spaces hb.lead_spaces (opens_of_isName ha.isName _)
    (opens_of_isName hb.isName _) h
  obtain ⟨hName, hQuotes⟩ := Text.run_inj ha.isName.2 hb.isName.2 rfl rfl hNames
  obtain ⟨hQuote, hRaws⟩ := List.cons.inj (List.cons.inj hQuotes).2
  dsimp only at hLead hName
  subst hLead hName hQuote
  have hStop (more : List Char) : Text.opens (· != quote) ([quote] ++ more) = false := by simp
  obtain ⟨rfl, hRest⟩ := Text.run_inj (p := (· != quote))
    (fun c hc => bne_iff_ne.mpr (ha.raw_plain c hc).1)
    (fun c hc => bne_iff_ne.mpr (hb.raw_plain c hc).1) (hStop r) (hStop s) hRaws
  exact ⟨rfl, List.append_cancel_left hRest⟩

/-- The attributes of a tag are told apart, up to what can be no attribute. -/
theorem spell_attributes_inj {as bs : List Attribute} {t u : List Char}
    (hAs : ∀ a ∈ as, a.WellFormed) (hBs : ∀ b ∈ bs, b.WellFormed) (ht : IsSpaces t) (hu : IsSpaces u)
    (hr : Text.opens isSpace r = false ∧ Text.opens isNameChar r = false)
    (hs : Text.opens isSpace s = false ∧ Text.opens isNameChar s = false)
    (h : as.flatMap Attribute.spell ++ (t ++ r) = bs.flatMap Attribute.spell ++ (u ++ s)) :
    as = bs ∧ t = u ∧ r = s := by
  -- Spaces with no name after them are the end of the tag and not before an attribute.
  have hEnd {b : Attribute} {t r more : List Char} (ht : IsSpaces t)
      (hr : Text.opens isSpace r = false ∧ Text.opens isNameChar r = false) (hb : b.WellFormed)
      (h : t ++ r = b.spell ++ more) : False := by
    rw [Attribute.spell, List.append_assoc, List.append_assoc] at h
    obtain ⟨-, rfl⟩ := Text.run_inj ht hb.lead_spaces hr.1 (opens_of_isName hb.isName _) h
    obtain ⟨c, name, hName⟩ := List.exists_cons_of_ne_nil hb.isName.1
    have hOpens := hr.2
    rw [hName, List.cons_append, Text.opens_cons,
      hb.isName.2 c (hName ▸ List.mem_cons_self)] at hOpens
    cases hOpens
  induction as generalizing bs with
  | nil =>
      cases bs with
      | nil => exact ⟨rfl, Text.run_inj ht hu hr.1 hs.1 h⟩
      | cons b bs =>
          rw [List.flatMap_cons, List.append_assoc] at h
          exact (hEnd ht hr (hBs b List.mem_cons_self) h).elim
  | cons a as ih =>
      have ha := hAs a List.mem_cons_self
      cases bs with
      | nil =>
          rw [List.flatMap_cons, List.append_assoc] at h
          exact (hEnd hu hs ha h.symm).elim
      | cons b bs =>
          rw [List.flatMap_cons, List.flatMap_cons, List.append_assoc, List.append_assoc] at h
          obtain ⟨rfl, hMore⟩ := Attribute.spell_inj ha (hBs b List.mem_cons_self) h
          obtain ⟨rfl, hTail, hRest⟩ := ih (fun a h => hAs a (List.mem_cons_of_mem _ h))
            (fun b h => hBs b (List.mem_cons_of_mem _ h)) hMore
          exact ⟨rfl, hTail, hRest⟩

/-- What a tag is written with, up to its bracket. -/
theorem spellTag_inj {name name' t u : List Char} {as bs : List Attribute}
    (ha : WellFormedTag name as t) (hb : WellFormedTag name' bs u)
    (hr : Text.opens isSpace r = false ∧ Text.opens isNameChar r = false)
    (hs : Text.opens isSpace s = false ∧ Text.opens isNameChar s = false)
    (h : spellTag name as t ++ r = spellTag name' bs u ++ s) :
    name = name' ∧ as = bs ∧ t = u ∧ r = s := by
  -- After the name comes a space or the bracket.
  have hNext {name t r : List Char} {as : List Attribute} (h : WellFormedTag name as t)
      (hr : Text.opens isNameChar r = false) :
      Text.opens isNameChar (as.flatMap Attribute.spell ++ (t ++ r)) = false := by
    cases as with
    | nil =>
        rw [List.flatMap_nil, List.nil_append]
        exact Text.opens_append (fun c hc => not_isNameChar_of_isSpace (h.tail_spaces c hc)) hr
    | cons a as =>
        have ha := h.attributes_wellFormed a List.mem_cons_self
        rw [List.flatMap_cons, Attribute.spell, List.append_assoc, List.append_assoc]
        exact Text.opens_append_of_ne_nil ha.lead_ne_nil
          fun c hc => not_isNameChar_of_isSpace (ha.lead_spaces c hc)
  simp only [spellTag, List.cons_append, List.append_assoc] at h
  obtain ⟨hName, hMore⟩ := Text.run_inj ha.isName.2 hb.isName.2 (hNext ha hr.2) (hNext hb hs.2)
    (List.cons.inj h).2
  exact ⟨hName, spell_attributes_inj ha.attributes_wellFormed hb.attributes_wellFormed
    ha.tail_spaces hb.tail_spaces hr hs hMore⟩

/-- What pieces can be followed by: the end tag around them, or nothing. -/
def Closes (r : List Char) : Prop := r = [] ∨ ∃ more, r = '<' :: '/' :: more

/-- A piece that is no text opens a tag with a name in it. -/
theorem spell_eq_of_not_isText {piece : Piece} (h : piece.WellFormed) (hTag : piece.isText = false) :
    ∃ c more, piece.spell = '<' :: c :: more ∧ isNameChar c = true := by
  have hName {name t : List Char} {as : List Attribute} (h : WellFormedTag name as t) (r : List Char) :
      ∃ c more, spellTag name as t ++ r = '<' :: c :: more ∧ isNameChar c = true := by
    obtain ⟨c, name, rfl⟩ := List.exists_cons_of_ne_nil h.isName.1
    exact ⟨c, _, rfl, h.isName.2 c List.mem_cons_self⟩
  cases piece with
  | text raw => cases hTag
  | single name as t => exact hName h _
  | element name as t pieces => exact hName h.1 _

theorem not_closes_spell {piece : Piece} (h : piece.WellFormed) (more : List Char) :
    ¬ Closes (piece.spell ++ more) := by
  intro hCloses
  by_cases hText : piece.isText
  · cases piece with
    | text raw =>
        obtain ⟨c, raw, rfl⟩ := List.exists_cons_of_ne_nil h.1
        rcases hCloses with hNil | ⟨rest, hEnd⟩
        · exact List.cons_ne_nil _ _ hNil
        · exact h.2 c List.mem_cons_self (List.cons.inj hEnd).1
    | single _ _ _ => cases hText
    | element _ _ _ _ => cases hText
  · obtain ⟨c, rest, hSpell, hName⟩ := spell_eq_of_not_isText h (by simpa using hText)
    rw [hSpell] at hCloses
    rcases hCloses with hNil | ⟨rest, hEnd⟩
    · exact List.cons_ne_nil _ _ hNil
    · rw [(List.cons.inj (List.cons.inj hEnd).2).1] at hName
      exact absurd hName (by decide)

theorem isText_eq_of_spell {p q : Piece} (hp : p.WellFormed) (hq : q.WellFormed)
    (h : p.spell ++ r = q.spell ++ s) : p.isText = q.isText := by
  have hOpens {p : Piece} (hp : p.WellFormed) (r : List Char) :
      Text.opens (· != '<') (p.spell ++ r) = p.isText := by
    cases hText : p.isText with
    | false =>
        obtain ⟨c, more, hSpell, -⟩ := spell_eq_of_not_isText hp hText
        rw [hSpell]
        rfl
    | true =>
        cases p with
        | text raw =>
            obtain ⟨c, raw, rfl⟩ := List.exists_cons_of_ne_nil hp.1
            exact bne_iff_ne.mpr (hp.2 c List.mem_cons_self)
        | single _ _ _ => cases hText
        | element _ _ _ _ => cases hText
  rw [← hOpens hp r, h, hOpens hq s]

/-- A run of text ends where the next tag opens. -/
theorem opens_spellAll {ps : List Piece} (h : WellFormedAll ps)
    (hText : ps.head?.any Piece.isText = false) (hr : Closes r) :
    Text.opens (· != '<') (spellAll ps ++ r) = false := by
  cases ps with
  | nil => rcases hr with rfl | ⟨more, rfl⟩ <;> rfl
  | cons piece ps =>
      obtain ⟨c, more, hSpell, -⟩ := spell_eq_of_not_isText h.1 hText
      rw [spellAll, hSpell]
      rfl

theorem length_spell_pos {piece : Piece} (h : piece.WellFormed) : 0 < piece.spell.length := by
  refine List.length_pos_iff.mpr fun hNil => not_closes_spell h [] ?_
  rw [hNil]
  exact .inl rfl

/-- Pieces with fewer characters than a given number are told apart, up to the end tag around them. -/
def ToldApartBelow (n : ℕ) : Prop :=
  ∀ {ps qs : List Piece} {r s : List Char}, (spellAll ps).length < n → WellFormedAll ps →
    WellFormedAll qs → Closes r → Closes s → spellAll ps ++ r = spellAll qs ++ s → ps = qs ∧ r = s

/-- A piece ends where what is in it is told apart, and a text where the next tag opens. -/
theorem Piece.spell_inj_of_inner {p q : Piece} (hInner : ToldApartBelow p.spell.length)
    (hp : p.WellFormed) (hq : q.WellFormed)
    (hr : p.isText → Text.opens (· != '<') r = false)
    (hs : q.isText → Text.opens (· != '<') s = false) (h : p.spell ++ r = q.spell ++ s) :
    p = q ∧ r = s := by
  have hSame := isText_eq_of_spell hp hq h
  cases p with
  | text raw =>
      cases q with
      | text raw' =>
          obtain ⟨rfl, hMore⟩ := Text.run_inj (p := (· != '<')) (fun c hc => bne_iff_ne.mpr (hp.2 c hc))
            (fun c hc => bne_iff_ne.mpr (hq.2 c hc)) (hr rfl) (hs rfl) h
          exact ⟨rfl, hMore⟩
      | single _ _ _ => cases hSame
      | element _ _ _ _ => cases hSame
  | single name as t =>
      cases q with
      | text _ => cases hSame
      | single name' bs u =>
          simp only [Piece.spell, List.append_assoc] at h
          obtain ⟨rfl, rfl, rfl, hMore⟩ := spellTag_inj hp hq ⟨rfl, rfl⟩ ⟨rfl, rfl⟩ h
          exact ⟨rfl, List.append_cancel_left hMore⟩
      | element name' bs u pieces =>
          simp only [Piece.spell, List.append_assoc] at h
          obtain ⟨-, -, -, hMore⟩ := spellTag_inj hp hq.1 ⟨rfl, rfl⟩ ⟨rfl, rfl⟩ h
          exact absurd (List.cons.inj hMore).1 (by decide)
  | element name as t pieces =>
      cases q with
      | text _ => cases hSame
      | single name' bs u =>
          simp only [Piece.spell, List.append_assoc] at h
          obtain ⟨-, -, -, hMore⟩ := spellTag_inj hp.1 hq ⟨rfl, rfl⟩ ⟨rfl, rfl⟩ h
          exact absurd (List.cons.inj hMore).1 (by decide)
      | element name' bs u pieces' =>
          have hLess : (spellAll pieces).length < (Piece.element name as t pieces).spell.length := by
            simp only [Piece.spell, List.length_append, List.length_cons]
            omega
          simp only [Piece.spell, List.append_assoc, List.cons_append] at h
          obtain ⟨rfl, rfl, rfl, hMore⟩ := spellTag_inj hp.1 hq.1 ⟨rfl, rfl⟩ ⟨rfl, rfl⟩ h
          obtain ⟨rfl, hAfter⟩ := hInner hLess hp.2 hq.2 (.inr ⟨_, rfl⟩) (.inr ⟨_, rfl⟩)
            (List.cons.inj hMore).2
          have hBehind := (List.cons.inj (List.cons.inj hAfter).2).2
          rw [List.nil_append, List.nil_append] at hBehind
          exact ⟨rfl, (List.cons.inj (List.append_cancel_left hBehind)).2⟩

/-- Pieces are told apart, up to the end tag around them. -/
theorem spellAll_inj {ps qs : List Piece} (hps : WellFormedAll ps) (hqs : WellFormedAll qs)
    (hr : Closes r) (hs : Closes s) (h : spellAll ps ++ r = spellAll qs ++ s) :
    ps = qs ∧ r = s := by
  -- What is in an element is shorter than the element, as are the pieces after it.
  induction hn : (spellAll ps).length using Nat.strong_induction_on generalizing ps qs r s with
  | _ n ih =>
  subst hn
  have hBelow : ToldApartBelow (spellAll ps).length := fun hLess hps hqs hr hs h =>
    ih _ hLess hps hqs hr hs h rfl
  cases ps with
  | nil =>
      cases qs with
      | nil => exact ⟨rfl, h⟩
      | cons q qs =>
          rw [spellAll, spellAll, List.append_assoc, List.nil_append] at h
          exact (not_closes_spell hqs.1 _ (h ▸ hr)).elim
  | cons p ps =>
      cases qs with
      | nil =>
          rw [spellAll, spellAll, List.append_assoc, List.nil_append] at h
          exact (not_closes_spell hps.1 _ (h.symm ▸ hs)).elim
      | cons q qs =>
          obtain ⟨hp, hpText, hps⟩ := hps
          obtain ⟨hq, hqText, hqs⟩ := hqs
          have hLength : (spellAll (p :: ps)).length = p.spell.length + (spellAll ps).length := by
            rw [spellAll, List.length_append]
          rw [hLength] at hBelow
          rw [spellAll, spellAll, List.append_assoc, List.append_assoc] at h
          obtain ⟨rfl, hMore⟩ := Piece.spell_inj_of_inner (fun hLess => hBelow (by omega)) hp hq
            (fun hText => opens_spellAll hps (hpText hText) hr)
            (fun hText => opens_spellAll hqs (hqText hText) hs) h
          have hPos := length_spell_pos hp
          obtain ⟨rfl, hEnd⟩ := hBelow (by omega) hps hqs hr hs hMore
          exact ⟨rfl, hEnd⟩

/-- A text is the spelling of one piece at most. -/
theorem Piece.spell_inj {p q : Piece} (hp : p.WellFormed) (hq : q.WellFormed)
    (h : p.spell = q.spell) : p = q := by
  have hAlone {piece : Piece} (h : piece.WellFormed) : WellFormedAll [piece] :=
    ⟨h, fun _ => rfl, trivial⟩
  have hSpell : spellAll [p] ++ [] = spellAll [q] ++ [] := by
    simp only [spellAll, h]
  exact (List.cons.inj (spellAll_inj (hAlone hp) (hAlone hq) (.inl rfl) (.inl rfl) hSpell).1).1

end TimingDiagram.Markup
