import Mathlib.Data.List.Sort
import Mathlib.Data.String.Basic
import TimingDiagram.Markup.Element
import TimingDiagram.Proofs.Markup.Grammar

/-! Written elements. An element is written as the piece of markup that has its name, its attributes
and its content, and its texts are what the entities stand for. -/
namespace TimingDiagram

namespace Markup

namespace Piece

def name : Piece → List Char
  | text _ => []
  | single name _ _ => name
  | element name _ _ _ => name

def attributes : Piece → List Attribute
  | text _ => []
  | single _ attributes _ => attributes
  | element _ attributes _ _ => attributes

/-- What an element holds. -/
def inner : Piece → List Piece
  | element _ _ _ pieces => pieces
  | _ => []

end Piece

/-- A text with what its entities stand for. -/
def unescape : List Char → List Char
  | '&' :: 'a' :: 'm' :: 'p' :: ';' :: rest => '&' :: unescape rest
  | '&' :: 'l' :: 't' :: ';' :: rest => '<' :: unescape rest
  | '&' :: 'g' :: 't' :: ';' :: rest => '>' :: unescape rest
  | '&' :: 'q' :: 'u' :: 'o' :: 't' :: ';' :: rest => '\x22' :: unescape rest
  | '&' :: '#' :: '1' :: '3' :: ';' :: rest => '\r' :: unescape rest
  | '&' :: '#' :: '1' :: '0' :: ';' :: rest => '\n' :: unescape rest
  | '&' :: '#' :: '0' :: '9' :: ';' :: rest => '\t' :: unescape rest
  | c :: rest => c :: unescape rest
  | [] => []

theorem unescape_cons {c : Char} (h : c ≠ '&') (rest : List Char) :
    unescape (c :: rest) = c :: unescape rest := by
  rw [unescape] <;> simp_all

end Markup

namespace Element

open Markup

theorem unescape_textChar (c : Char) (rest : List Char) :
    unescape (textChar c ++ rest) = c :: unescape rest := by
  rw [textChar.eq_def]
  split
  · rfl
  · rfl
  · rfl
  · exact unescape_cons ‹_› rest

theorem unescape_attributeChar (c : Char) (rest : List Char) :
    unescape (attributeChar c ++ rest) = c :: unescape rest := by
  rw [attributeChar.eq_def]
  split
  · rfl
  · rfl
  · rfl
  · rfl
  · exact unescape_textChar c rest

theorem unescape_flatMap {escape : Char → List Char}
    (h : ∀ c rest, unescape (escape c ++ rest) = c :: unescape rest) (cs : List Char) :
    unescape (cs.flatMap escape) = cs := by
  induction cs with
  | nil => rfl
  | cons c cs ih => rw [List.flatMap_cons, h, ih]

theorem unescape_escapeText (s : String) : unescape (escapeText s).toList = s.toList := by
  rw [escapeText, String.toList_ofList]
  exact unescape_flatMap unescape_textChar _

theorem unescape_escapeAttribute (s : String) : unescape (escapeAttribute s).toList = s.toList := by
  rw [escapeAttribute, String.toList_ofList]
  exact unescape_flatMap unescape_attributeChar _

theorem all_textChar (c : Char) : (textChar c).all (· != '<') = true := by
  rw [textChar.eq_def]
  split
  · rfl
  · rfl
  · rfl
  · simpa using ‹_›

theorem all_attributeChar (c : Char) :
    (attributeChar c).all (fun d => d != '\x22' && d != '<') = true := by
  rw [attributeChar.eq_def]
  split
  · rfl
  · rfl
  · rfl
  · rfl
  · rw [textChar.eq_def]
    split
    · rfl
    · rfl
    · rfl
    · simp_all

theorem ne_of_mem_escapeText {s : String} {c : Char} (h : c ∈ (escapeText s).toList) : c ≠ '<' := by
  rw [escapeText, String.toList_ofList] at h
  obtain ⟨d, -, hc⟩ := List.mem_flatMap.mp h
  exact bne_iff_ne.mp (List.all_eq_true.mp (all_textChar d) c hc)

theorem ne_of_mem_escapeAttribute {s : String} {c : Char} (h : c ∈ (escapeAttribute s).toList) :
    c ≠ '\x22' ∧ c ≠ '<' := by
  rw [escapeAttribute, String.toList_ofList] at h
  obtain ⟨d, -, hc⟩ := List.mem_flatMap.mp h
  simpa using List.all_eq_true.mp (all_attributeChar d) c hc

/-- The attributes that are written, as they are written. -/
def spelled (attributes : List (String × String)) : List Attribute :=
  (writtenAttributes attributes).map fun a =>
    ⟨[' '], a.1.toList, '\x22', (escapeAttribute a.2).toList⟩

/-- The run of text that an element holds, if it holds one. -/
def textPieces (text : String) : List Piece :=
  if text.isEmpty then [] else [.text (escapeText text).toList]

mutual

/-- The piece of markup that an element is written as. -/
def piece : Element → Piece
  | node name attributes text children =>
    if text.isEmpty && children.isEmpty then .single name.toList (spelled attributes) [' ']
    else .element name.toList (spelled attributes) [] (textPieces text ++ pieces children)

def pieces : List Element → List Piece
  | [] => []
  | e :: rest => e.piece :: pieces rest

end

theorem piece_parts (name : String) (attributes : List (String × String)) (text : String)
    (children : List Element) :
    (piece (.node name attributes text children)).name = name.toList ∧
      (piece (.node name attributes text children)).attributes = spelled attributes ∧
      (piece (.node name attributes text children)).inner = textPieces text ++ pieces children := by
  rw [piece]
  split_ifs with h
  · obtain ⟨hText, hChildren⟩ := Bool.and_eq_true_iff.mp h
    rw [textPieces, if_pos hText, List.isEmpty_iff.mp hChildren]
    exact ⟨rfl, rfl, rfl⟩
  · exact ⟨rfl, rfl, rfl⟩

/-- An attribute is written when its value is not empty. -/
theorem mem_spelled {attributes : List (String × String)} {a : Attribute} :
    a ∈ spelled attributes ↔ ∃ entry ∈ attributes, entry.2 ≠ "" ∧
      ⟨[' '], entry.1.toList, '\x22', (escapeAttribute entry.2).toList⟩ = a := by
  simp only [spelled, writtenAttributes, List.mem_map, List.mem_mergeSort, List.mem_filter,
    Bool.not_eq_true', String.isEmpty_eq_false_iff, and_assoc]

/-- A value that is not empty can be read off the attribute that it is written as. -/
theorem exists_spelled {attributes : List (String × String)} {name value : String}
    (h : (name, value) ∈ attributes) (hSome : value ≠ "") :
    ∃ a ∈ spelled attributes, a.name = name.toList ∧ unescape a.raw = value.toList :=
  ⟨_, mem_spelled.mpr ⟨(name, value), h, hSome, rfl⟩, rfl, unescape_escapeAttribute value⟩

theorem nodup_names_spelled {attributes : List (String × String)}
    (h : (attributes.map Prod.fst).Nodup) : ((spelled attributes).map Attribute.name).Nodup := by
  have hSorted : (writtenAttributes attributes).Perm (attributes.filter fun a => !a.2.isEmpty) :=
    List.mergeSort_perm _ _
  have hKept : ((writtenAttributes attributes).map Prod.fst).Nodup :=
    (hSorted.map Prod.fst).nodup_iff.mpr ((List.filter_sublist.map Prod.fst).nodup h)
  rw [spelled, List.map_map]
  have hNames := hKept.map (f := String.toList) fun _ _ => String.toList_injective
  rwa [List.map_map] at hNames

theorem toList_writeHead (name : String) (attributes : List (String × String)) (tail : List Char) :
    '<' :: (writeHead name attributes).toList ++ tail =
      spellTag name.toList (spelled attributes) tail := by
  have hAttribute (a : String × String) : (writeAttribute a).toList =
      Attribute.spell ⟨[' '], a.1.toList, '\x22', (escapeAttribute a.2).toList⟩ := by
    simp [writeAttribute, Attribute.spell]
  simp only [writeHead, String.toList_append, String.toList_join, List.flatMap_map, hAttribute,
    spellTag, spelled, List.cons_append, List.append_assoc]

theorem spellAll_append (ps qs : List Piece) : spellAll (ps ++ qs) = spellAll ps ++ spellAll qs := by
  induction ps with
  | nil => rfl
  | cons p ps ih => rw [List.cons_append, spellAll, spellAll, ih, List.append_assoc]

theorem spellAll_textPieces (text : String) :
    spellAll (textPieces text) = (escapeText text).toList := by
  rw [textPieces]
  split_ifs with h
  · rw [String.isEmpty_iff.mp h]
    rfl
  · exact List.append_nil _

mutual

/-- What an element is written as is the spelling of its piece. -/
theorem spell_piece : ∀ e : Element, e.piece.spell = e.write.toList
  | node name attributes text children => by
      rw [piece, write]
      split_ifs with h
      · rw [Piece.spell, ← toList_writeHead]
        simp
      · rw [Piece.spell, ← toList_writeHead, spellAll_append, spellAll_textPieces,
          spellAll_pieces children]
        simp

theorem spellAll_pieces : ∀ es : List Element,
    spellAll (pieces es) = (String.join (writeAll es)).toList
  | [] => rfl
  | e :: rest => by
      rw [pieces, spellAll, writeAll, String.join_cons, String.toList_append, spell_piece e,
        spellAll_pieces rest]

end

mutual

/-- Whether all names in an element are names of markup. -/
def Named : Element → Prop
  | node name attributes _ children =>
    IsName name.toList ∧ (∀ a ∈ writtenAttributes attributes, IsName a.1.toList) ∧ NamedAll children

def NamedAll : List Element → Prop
  | [] => True
  | e :: rest => e.Named ∧ NamedAll rest

end

theorem named_node {name : String} {attributes : List (String × String)} {text : String}
    {children : List Element} (hName : isName name = true)
    (hNames : (attributes.map Prod.fst).all isName = true) (h : NamedAll children) :
    (node name attributes text children).Named := by
  refine ⟨isName_iff.mp hName, fun a ha => isName_iff.mp ?_, h⟩
  have hMem := (List.mem_filter.mp (List.mem_mergeSort.mp ha)).1
  exact List.all_eq_true.mp hNames a.1 (List.mem_map_of_mem hMem)

theorem wellFormedTag_spelled {name : String} {attributes : List (String × String)} {tail : List Char}
    (hName : IsName name.toList) (hNames : ∀ a ∈ writtenAttributes attributes, IsName a.1.toList)
    (hTail : IsSpaces tail) : WellFormedTag name.toList (spelled attributes) tail where
  isName := hName
  attributes_wellFormed a ha := by
    obtain ⟨entry, hMem, rfl⟩ := List.mem_map.mp ha
    exact ⟨List.cons_ne_nil _ _, List.forall_mem_singleton.mpr rfl, hNames entry hMem, .inl rfl,
      fun c hc => ne_of_mem_escapeAttribute hc⟩
  tail_spaces := hTail

theorem isText_piece (e : Element) : e.piece.isText = false := by
  obtain ⟨name, attributes, text, children⟩ := e
  rw [piece]
  split_ifs <;> rfl

mutual

/-- An element is written as markup, whatever its texts are. -/
theorem wellFormed_piece : ∀ e : Element, e.Named → e.piece.WellFormed
  | node name attributes text children, h => by
      rw [piece]
      split_ifs
      · exact wellFormedTag_spelled h.1 h.2.1 (List.forall_mem_singleton.mpr rfl)
      · refine ⟨wellFormedTag_spelled h.1 h.2.1 (List.forall_mem_nil _), ?_⟩
        have hChildren := wellFormedAll_pieces children h.2.2
        rw [textPieces]
        split_ifs with hText
        · exact hChildren
        · refine ⟨⟨fun hNil => hText ?_, fun c hc => ne_of_mem_escapeText hc⟩, fun _ => ?_, hChildren⟩
          · have hText' := unescape_escapeText text
            rw [hNil] at hText'
            rw [String.isEmpty_iff, ← String.toList_eq_nil_iff, ← hText']
            rfl
          · cases children with
            | nil => rfl
            | cons e rest => exact isText_piece e

theorem wellFormedAll_pieces : ∀ es : List Element, NamedAll es → WellFormedAll (pieces es)
  | [], _ => trivial
  | e :: rest, h => by
      refine ⟨wellFormed_piece e h.1, fun hText => ?_, wellFormedAll_pieces rest h.2⟩
      rw [isText_piece] at hText
      cases hText

end

end Element
end TimingDiagram
