import TimingDiagram.Edge.Spec
import TimingDiagram.Proofs.Outcome
import TimingDiagram.Proofs.Text.Runs

/-! The shorthand of an edge. It is read exactly where a text splits into a name, a symbol, a name
and perhaps a label, and there is only one way to split it. -/
namespace TimingDiagram

namespace EdgeSpec

/-- A name in a shorthand: some characters, none of them blank or part of a symbol. -/
def IsName (cs : List Char) : Prop :=
  cs ≠ [] ∧ ∀ c ∈ cs, Text.isBlank c = false ∧ c ∉ ['<', '>', '~', '|', '-']

/-- What may follow the second name: blanks only, or blanks and a text without line feeds, those
in the blanks around it apart. -/
def IsTail (cs : List Char) : Prop :=
  (∀ c ∈ cs, Text.isBlank c = true) ∨ ∃ blanks text, cs = blanks ++ text ∧ blanks ≠ [] ∧
    (∀ c ∈ blanks, Text.isBlank c = true) ∧ '\n' ∉ Text.trimBlanks text

/-- A text as a label; an empty one is none. -/
def labelOf (text : List Char) : Option String :=
  if text = [] then none else some (String.ofList text)

/-- A character that is there or not. -/
def mark (c : Char) (present : Bool) : List Char := if present then [c] else []

/-- The parts of a shorthand, in the order in which they are written. -/
@[ext] structure Shorthand where
  lead : List Char
  source : List Char
  gap : List Char
  start : Bool
  shape : EdgeShape
  stop : Bool
  skip : List Char
  target : List Char
  tail : List Char
  blank_lead : ∀ c ∈ lead, Text.isBlank c = true
  name_source : IsName source
  blank_gap : ∀ c ∈ gap, Text.isBlank c = true
  blank_skip : ∀ c ∈ skip, Text.isBlank c = true
  name_target : IsName target
  tail_tail : IsTail tail

namespace Shorthand

/-- What is written after the shape. -/
def afterShape (p : Shorthand) : List Char := mark '>' p.stop ++ (p.skip ++ (p.target ++ p.tail))

/-- What is written after the first name. -/
def afterSource (p : Shorthand) : List Char :=
  p.gap ++ (mark '<' p.start ++ (p.shape.symbol.toList ++ p.afterShape))

/-- The text that the parts make up. -/
def write (p : Shorthand) : String := String.ofList (p.lead ++ (p.source ++ p.afterSource))

/-- The edge that the parts declare. -/
def edge (p : Shorthand) : EdgeSpec :=
  ⟨String.ofList p.source, String.ofList p.target, ⟨p.shape, p.start, p.stop, false⟩,
    labelOf (Text.trimBlanks p.tail)⟩

end Shorthand

section Classes

variable {c : Char} {cs : List Char}

theorem isSymbolChar_of_isShapeChar (h : isShapeChar c = true) : isSymbolChar c = true := by
  simp only [isShapeChar, isSymbolChar, Bool.or_eq_true] at h ⊢
  tauto

theorem isBlank_of_isSymbolChar (h : isSymbolChar c = true) : Text.isBlank c = false := by
  simp only [isSymbolChar, Bool.or_eq_true, beq_iff_eq] at h
  rcases h with (((rfl | rfl) | rfl) | rfl) | rfl <;> decide

theorem isSymbolChar_of_isBlank (h : Text.isBlank c = true) : isSymbolChar c = false := by
  grind [isBlank_of_isSymbolChar]

theorem isNameChar_of_isSymbolChar (h : isSymbolChar c = true) : isNameChar c = false := by
  simp [isNameChar, h]

theorem isSymbolChar_of_isNameChar (h : isNameChar c = true) : isSymbolChar c = false := by
  grind [isNameChar_of_isSymbolChar]

theorem isNameChar_of_isBlank (h : Text.isBlank c = true) : isNameChar c = false := by
  simp [isNameChar, h]

theorem isNameChar_iff :
    isNameChar c = true ↔ Text.isBlank c = false ∧ c ∉ ['<', '>', '~', '|', '-'] := by
  simp [isNameChar, isSymbolChar, and_assoc]

theorem isName_iff : IsName cs ↔ cs ≠ [] ∧ ∀ c ∈ cs, isNameChar c = true :=
  and_congr_right fun _ => forall₂_congr fun _ _ => isNameChar_iff.symm

theorem isShapeChar_symbol (shape : EdgeShape) :
    ∀ c ∈ shape.symbol.toList, isShapeChar c = true := by
  apply List.all_eq_true.mp
  cases shape <;> decide

theorem symbol_ne_nil (shape : EdgeShape) : shape.symbol.toList ≠ [] := by
  cases shape <;> decide

theorem symbol_inj {shape other : EdgeShape} (h : shape.symbol = other.symbol) : shape = other := by
  have hRead := congrArg EdgeShape.ofSymbol? h
  rw [EdgeShape.ofSymbol?_symbol, EdgeShape.ofSymbol?_symbol] at hRead
  exact Option.some.inj hRead

theorem symbol_of_ofSymbol? {s : String} {shape : EdgeShape}
    (h : EdgeShape.ofSymbol? s = some shape) : shape.symbol = s := by
  simpa using List.find?_some h

end Classes

section Marks

variable {c : Char} {cs : List Char}

theorem flag_mark (present : Bool) (h : Text.opens (· == c) cs = false) :
    flag c (mark c present ++ cs) = (present, cs) := by
  cases present with
  | true => exact if_pos rfl
  | false =>
      cases cs with
      | nil => rfl
      | cons d cs => exact if_neg (by simpa using h)

theorem mark_flag (c : Char) (cs : List Char) : mark c (flag c cs).1 ++ (flag c cs).2 = cs := by
  cases cs with
  | nil => rfl
  | cons d cs =>
      rw [flag]
      split_ifs with hd
      · rw [hd]
        rfl
      · rfl

end Marks

section Tails

variable {cs : List Char}

/-- What may follow the second name, told by its first character and by its trimmed text. -/
theorem isTail_iff :
    IsTail cs ↔ Text.opens (fun c => !Text.isBlank c) cs = false ∧ '\n' ∉ Text.trimBlanks cs := by
  constructor
  · rintro (hBlank | ⟨blanks, text, rfl, hNil, hBlank, hLine⟩)
    · rw [Text.trimBlanks_eq_nil hBlank]
      refine ⟨?_, by simp⟩
      rw [← List.append_nil cs]
      exact Text.opens_append (by simpa using hBlank) rfl
    · rw [Text.trimBlanks_append hBlank]
      exact ⟨Text.opens_append_of_ne_nil hNil (by simpa using hBlank), hLine⟩
  · rintro ⟨hOpens, hLine⟩
    cases cs with
    | nil => exact .inl (by simp)
    | cons c cs =>
        have hBlank : ∀ d ∈ [c], Text.isBlank d = true := by simpa using hOpens
        refine .inr ⟨[c], cs, rfl, by simp, hBlank, ?_⟩
        rwa [← Text.trimBlanks_append hBlank]

/-- A tail is read as its trimmed text, and nothing else is read as a tail. -/
theorem label?_eq_some_iff {label : Option String} :
    label? cs = some label ↔ IsTail cs ∧ labelOf (Text.trimBlanks cs) = label := by
  rw [isTail_iff]
  cases cs with
  | nil =>
      have hTrim : Text.trimBlanks [] = [] := rfl
      simp [label?, labelOf, hTrim]
  | cons c cs =>
      have hRead : label? (c :: cs) =
          if !Text.isBlank c || (Text.trimBlanks (c :: cs)).contains '\n' then none
          else some (labelOf (Text.trimBlanks (c :: cs))) := by
        simp only [label?, labelOf, List.isEmpty_iff]
      rw [hRead]
      simp [and_assoc]

end Tails

namespace Shorthand

variable (p : Shorthand)

theorem opens_source : Text.opens Text.isBlank (p.source ++ p.afterSource) = false :=
  Text.opens_append_of_ne_nil p.name_source.1 fun c hc => (p.name_source.2 c hc).1

theorem opens_target : Text.opens Text.isBlank (p.target ++ p.tail) = false :=
  Text.opens_append_of_ne_nil p.name_target.1 fun c hc => (p.name_target.2 c hc).1

/-- The symbol opens with none but its own characters. -/
theorem opens_symbol {q : Char → Bool} (h : ∀ c, isSymbolChar c = true → q c = false) :
    Text.opens q (mark '<' p.start ++ (p.shape.symbol.toList ++ p.afterShape)) = false := by
  cases p.start with
  | true => exact h '<' (by decide)
  | false =>
      change Text.opens q (p.shape.symbol.toList ++ p.afterShape) = false
      exact Text.opens_append_of_ne_nil (symbol_ne_nil p.shape) fun c hc =>
        h c (isSymbolChar_of_isShapeChar (isShapeChar_symbol p.shape c hc))

/-- What follows the symbol opens with none of its characters. -/
theorem opens_skip {q : Char → Bool} (h : ∀ c, q c = true → isSymbolChar c = true) :
    Text.opens q (p.skip ++ (p.target ++ p.tail)) = false := by
  have hOther (c : Char) (hc : isSymbolChar c = false) : q c = false := by grind
  obtain ⟨hNil, hNames⟩ := isName_iff.mp p.name_target
  refine Text.opens_append (fun c hc => hOther c ?_)
    (Text.opens_append_of_ne_nil hNil fun c hc => hOther c ?_)
  · exact isSymbolChar_of_isBlank (p.blank_skip c hc)
  · exact isSymbolChar_of_isNameChar (hNames c hc)

theorem opens_afterSource : Text.opens isNameChar p.afterSource = false :=
  Text.opens_append (fun c hc => isNameChar_of_isBlank (p.blank_gap c hc))
    (p.opens_symbol fun _ => isNameChar_of_isSymbolChar)

theorem opens_start :
    Text.opens Text.isBlank (mark '<' p.start ++ (p.shape.symbol.toList ++ p.afterShape)) = false :=
  p.opens_symbol fun _ => isBlank_of_isSymbolChar

theorem opens_afterShape : Text.opens isShapeChar p.afterShape = false := by
  rw [afterShape]
  cases p.stop with
  | true => rfl
  | false => exact p.opens_skip fun _ => isSymbolChar_of_isShapeChar

theorem opens_tail : Text.opens isNameChar p.tail = false := by
  obtain ⟨hBlank, _⟩ := isTail_iff.mp p.tail_tail
  cases hTail : p.tail with
  | nil => rfl
  | cons c tail =>
      rw [hTail] at hBlank
      exact isNameChar_of_isBlank (by simpa using hBlank)

theorem flag_start : flag '<' (mark '<' p.start ++ (p.shape.symbol.toList ++ p.afterShape)) =
    (p.start, p.shape.symbol.toList ++ p.afterShape) := by
  have hNone : ∀ c ∈ p.shape.symbol.toList, (c == '<') = false := by
    intro c hc
    have hShape := isShapeChar_symbol p.shape c hc
    grind [isShapeChar]
  exact flag_mark p.start (Text.opens_append_of_ne_nil (symbol_ne_nil p.shape) hNone)

theorem flag_stop : flag '>' p.afterShape = (p.stop, p.skip ++ (p.target ++ p.tail)) := by
  refine flag_mark p.stop (p.opens_skip fun c hc => ?_)
  rw [eq_of_beq hc]
  decide

/-- The parts of a text are told from it, one after the other. -/
theorem write_injective : Function.Injective write := by
  intro p q h
  obtain ⟨hLead, h⟩ := Text.run_inj p.blank_lead q.blank_lead p.opens_source q.opens_source
    (String.ofList_injective h)
  obtain ⟨hSource, h⟩ := Text.run_inj (isName_iff.mp p.name_source).2
    (isName_iff.mp q.name_source).2 p.opens_afterSource q.opens_afterSource h
  obtain ⟨hGap, h⟩ := Text.run_inj p.blank_gap q.blank_gap p.opens_start q.opens_start h
  have hFlag := congrArg (flag '<') h
  rw [flag_start, flag_start, Prod.mk.injEq] at hFlag
  obtain ⟨hStart, h⟩ := hFlag
  obtain ⟨hShape, h⟩ := Text.run_inj (isShapeChar_symbol p.shape) (isShapeChar_symbol q.shape)
    p.opens_afterShape q.opens_afterShape h
  have hFlag := congrArg (flag '>') h
  rw [flag_stop, flag_stop, Prod.mk.injEq] at hFlag
  obtain ⟨hStop, h⟩ := hFlag
  obtain ⟨hSkip, h⟩ := Text.run_inj p.blank_skip q.blank_skip p.opens_target q.opens_target h
  obtain ⟨hTarget, hTail⟩ := Text.run_inj (isName_iff.mp p.name_target).2
    (isName_iff.mp q.name_target).2 p.opens_tail q.opens_tail h
  exact Shorthand.ext hLead hSource hGap hStart (symbol_inj (String.toList_injective hShape)) hStop
    hSkip hTarget hTail

/-- The parts of a shorthand are read back from the text that they make up. -/
theorem ofText?_write : ofText? p.write = some p.edge := by
  have hLead : Text.dropBlanks (p.lead ++ (p.source ++ p.afterSource)) =
      p.source ++ p.afterSource := Text.dropWhile_run p.blank_lead p.opens_source
  have hSource := Text.takeWhile_run (isName_iff.mp p.name_source).2 p.opens_afterSource
  have hSourceRest := Text.dropWhile_run (isName_iff.mp p.name_source).2 p.opens_afterSource
  have hGap : Text.dropBlanks p.afterSource =
      mark '<' p.start ++ (p.shape.symbol.toList ++ p.afterShape) :=
    Text.dropWhile_run p.blank_gap p.opens_start
  have hShape := Text.takeWhile_run (isShapeChar_symbol p.shape) p.opens_afterShape
  have hShapeRest := Text.dropWhile_run (isShapeChar_symbol p.shape) p.opens_afterShape
  have hSkip : Text.dropBlanks (p.skip ++ (p.target ++ p.tail)) = p.target ++ p.tail :=
    Text.dropWhile_run p.blank_skip p.opens_target
  have hTarget := Text.takeWhile_run (isName_iff.mp p.name_target).2 p.opens_tail
  have hTail := Text.dropWhile_run (isName_iff.mp p.name_target).2 p.opens_tail
  have hLabel := label?_eq_some_iff.mpr ⟨p.tail_tail, rfl⟩
  have hEnds : (p.source.isEmpty || p.target.isEmpty) = false := by
    simp [p.name_source.1, p.name_target.1]
  simp only [ofText?, write, String.toList_ofList, hLead, hSource, hSourceRest, hGap, p.flag_start,
    hShape, hShapeRest, String.ofList_toList, EdgeShape.ofSymbol?_symbol, p.flag_stop, hSkip,
    hTarget, hTail, hEnds, hLabel]
  rfl

end Shorthand

/-- What is read as a shorthand splits into its parts. -/
theorem exists_of_ofText? {s : String} {e : EdgeSpec} (h : ofText? s = some e) :
    ∃ p : Shorthand, p.write = s ∧ p.edge = e := by
  let fromSource := s.toList.dropWhile Text.isBlank
  let afterSource := fromSource.dropWhile isNameChar
  let fromStart := afterSource.dropWhile Text.isBlank
  let fromShape := (flag '<' fromStart).2
  let afterShape := fromShape.dropWhile isShapeChar
  let fromSkip := (flag '>' afterShape).2
  let fromTarget := fromSkip.dropWhile Text.isBlank
  let tail := fromTarget.dropWhile isNameChar
  unfold ofText? at h
  obtain ⟨shape, (hShape : EdgeShape.ofSymbol? (String.ofList (fromShape.takeWhile isShapeChar)) =
    some shape), h⟩ := Option.bind_eq_some_iff.mp h
  dsimp only at h
  split_ifs at h with hEnds
  obtain ⟨label, (hLabel : label? tail = some label), h⟩ := Option.bind_eq_some_iff.mp h
  cases h
  obtain ⟨hTail, rfl⟩ := label?_eq_some_iff.mp hLabel
  obtain ⟨hSource, hTarget⟩ : fromSource.takeWhile isNameChar ≠ [] ∧
      fromTarget.takeWhile isNameChar ≠ [] := by
    simp only [List.isEmpty_iff, Bool.or_eq_true, not_or] at hEnds
    exact hEnds
  have hRun (q : Char → Bool) (cs : List Char) : ∀ c ∈ cs.takeWhile q, q c = true :=
    fun _ => List.mem_takeWhile_imp
  refine ⟨⟨s.toList.takeWhile Text.isBlank, fromSource.takeWhile isNameChar,
    afterSource.takeWhile Text.isBlank, (flag '<' fromStart).1, shape, (flag '>' afterShape).1,
    fromSkip.takeWhile Text.isBlank, fromTarget.takeWhile isNameChar, tail, hRun _ _,
    isName_iff.mpr ⟨hSource, hRun _ _⟩, hRun _ _, hRun _ _, isName_iff.mpr ⟨hTarget, hRun _ _⟩,
    hTail⟩, ?_, ?_⟩
  · have hSymbol : shape.symbol.toList = fromShape.takeWhile isShapeChar := by
      rw [symbol_of_ofSymbol? hShape, String.toList_ofList]
    simp only [Shorthand.write, Shorthand.afterSource, Shorthand.afterShape, hSymbol]
    rw [List.takeWhile_append_dropWhile, List.takeWhile_append_dropWhile, mark_flag,
      List.takeWhile_append_dropWhile, mark_flag, List.takeWhile_append_dropWhile,
      List.takeWhile_append_dropWhile, List.takeWhile_append_dropWhile, String.ofList_toList]
  · rfl

theorem ofValue_text_eq_ok_iff {s : String} {e : EdgeSpec} :
    ofValue (.text s) = .ok e ↔ ∃ p : Shorthand, p.write = s ∧ p.edge = e := by
  rw [ofValue]
  constructor
  · intro h
    split at h
    · cases h
      exact exists_of_ofText? ‹_›
    · cases h
  · rintro ⟨p, rfl, rfl⟩
    rw [p.ofText?_write]

theorem ofValue_text_eq_error_iff {s : String} {e : Error} :
    ofValue (.text s) = .error e ↔
      (¬ ∃ p : Shorthand, p.write = s) ∧ e = .malformed (.edgeText s) {} := by
  rw [ofValue]
  constructor
  · intro h
    split at h
    · cases h
    · rename_i hNone
      cases h
      refine ⟨?_, rfl⟩
      rintro ⟨p, rfl⟩
      rw [p.ofText?_write] at hNone
      cases hNone
  · rintro ⟨hNone, rfl⟩
    split
    · obtain ⟨p, hp, _⟩ := exists_of_ofText? ‹_›
      exact absurd ⟨p, hp⟩ hNone
    · rfl

/-- A text declares an edge in shorthand exactly when it is made up of the parts of a shorthand: a
name, a symbol between an arrowhead or none at either end, a name, and then blanks or blanks and a
text without line feeds, with blanks before and after the names where the writer wants them. The
parts are told from the text, and the edge has the names, the symbol and the trimmed text. Every
other text is refused for what it is. -/
theorem ofValue_text_shorthand (s : String) :
    (Succeeds (ofValue (.text s)) ↔ ∃ p : Shorthand, p.write = s) ∧
      (∀ p q : Shorthand, p.write = s → q.write = s → p = q) ∧
      (∀ p : Shorthand, p.write = s → ∃ e, ofValue (.text s) = .ok e ∧
        e.source = String.ofList p.source ∧ e.target = String.ofList p.target ∧
        e.style = ⟨p.shape, p.start, p.stop, false⟩ ∧
        ∀ blanks text, p.tail = blanks ++ text → (∀ c ∈ blanks, Text.isBlank c = true) →
          e.label = labelOf (Text.trimBlanks text)) ∧
      ∀ e, ofValue (.text s) = .error e ↔
        (¬ ∃ p : Shorthand, p.write = s) ∧ e = .malformed (.edgeText s) {} := by
  refine ⟨⟨?_, ?_⟩, ?_, ?_, fun e => ofValue_text_eq_error_iff⟩
  · rintro ⟨e, h⟩
    obtain ⟨p, hp, _⟩ := ofValue_text_eq_ok_iff.mp h
    exact ⟨p, hp⟩
  · rintro ⟨p, hp⟩
    exact ⟨p.edge, ofValue_text_eq_ok_iff.mpr ⟨p, hp, rfl⟩⟩
  · intro p q hp hq
    exact Shorthand.write_injective (hp.trans hq.symm)
  · intro p hp
    refine ⟨p.edge, ofValue_text_eq_ok_iff.mpr ⟨p, hp, rfl⟩, rfl, rfl, rfl, ?_⟩
    intro blanks text hTail hBlank
    rw [Shorthand.edge, hTail, Text.trimBlanks_append hBlank]

example : ofText? "a<-|- b" = some ⟨"a", "b", ⟨.orthogonal, true, false, false⟩, none⟩ := rfl

example : ofText? "a-~-b" = none := rfl

end EdgeSpec
end TimingDiagram
