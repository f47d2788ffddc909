import TimingDiagram.Proofs.Edge.Shorthand

/-! The printed form of an edge. It is a shorthand without blanks to spare, so that the edges read
from shorthands are those that it gives back. -/
namespace TimingDiagram

namespace EdgeSpec

/-- A text that is a label as it stands. -/
structure IsLabel (cs : List Char) : Prop where
  ne_nil : cs ≠ []
  no_line : '\n' ∉ cs
  opens : Text.opens Text.isBlank cs = false
  ends : Text.ends Text.isBlank cs = false

/-- An edge that a shorthand can declare. -/
structure Writable (e : EdgeSpec) : Prop where
  source : IsName e.source.toList
  target : IsName e.target.toList
  solid : e.style.dashed = false
  label : ∀ text ∈ e.label, IsLabel text.toList

/-- The text of the arrowheads of an edge. -/
def arrows (e : EdgeSpec) : String :=
  String.ofList (mark '<' e.style.arrowStart ++ mark '>' e.style.arrowEnd)

/-- The label of an edge as an entry of a mapping. -/
def labelValue (e : EdgeSpec) : Value :=
  match e.label with
  | none => .null
  | some text => .text text

/-- What the entries of a mapping say of an edge. What is not among them is as it is by default. -/
structure DeclaredBy (e : EdgeSpec) (entries : List (String × Value)) : Prop where
  source : Value.lookupD "from" entries .null = .text e.source
  target : Value.lookupD "to" entries .null = .text e.target
  shape : Value.lookupD "shape" entries (.text "-") = .text e.style.shape.symbol
  arrow : Value.lookupD "arrow" entries (.text ">") = .text e.arrows
  dashed : Value.lookupD "dashed" entries (.bool false) = .bool e.style.dashed
  label : Value.lookupD "label" entries .null = e.labelValue

/-- The entries that declare an edge with a solid line. -/
def entries (e : EdgeSpec) : List (String × Value) :=
  [("from", .text e.source), ("to", .text e.target), ("shape", .text e.style.shape.symbol),
    ("arrow", .text e.arrows), ("label", e.labelValue)]

variable {e : EdgeSpec}

theorem declaredBy_entries (h : e.style.dashed = false) : e.DeclaredBy e.entries where
  source := rfl
  target := rfl
  shape := rfl
  arrow := rfl
  dashed := by
    rw [h]
    rfl
  label := rfl

theorem arrowsOf_arrows (e : EdgeSpec) :
    arrowsOf (.text e.arrows) = .ok (e.style.arrowStart, e.style.arrowEnd) := by
  rw [arrows]
  cases e.style.arrowStart <;> cases e.style.arrowEnd <;> rfl

/-- A mapping is read as the edge that it says, whatever the order of its entries and whatever
else is among them. -/
theorem ofValue_mapping {entries : List (String × Value)} (h : e.DeclaredBy entries) :
    ofValue (.mapping entries) = .ok e := by
  have hShape : shapeOf (.text e.style.shape.symbol) = .ok e.style.shape := by
    rw [shapeOf, EdgeShape.ofSymbol?_symbol]
  rw [ofValue, ofMapping, h.source, h.target, h.shape, h.arrow, h.dashed, h.label]
  simp only [hShape, arrowsOf_arrows, ok_bind]
  obtain ⟨source, target, style, label⟩ := e
  cases label <;> rfl

/-- What is printed after the second name. -/
def printedTail : Option String → List Char
  | none => []
  | some text => ' ' :: text.toList

theorem labelOf_printedTail {label : Option String} (h : ∀ text ∈ label, IsLabel text.toList) :
    IsTail (printedTail label) ∧ labelOf (Text.trimBlanks (printedTail label)) = label := by
  cases label with
  | none => exact ⟨.inl (by simp [printedTail]), rfl⟩
  | some text =>
      have hLabel := h text rfl
      have hBlank : ∀ c ∈ [' '], Text.isBlank c = true := List.forall_mem_singleton.mpr (by decide)
      have hTrim : Text.trimBlanks text.toList = text.toList :=
        Text.trimBlanks_eq_self hLabel.opens hLabel.ends
      refine ⟨.inr ⟨[' '], text.toList, rfl, by simp, hBlank, ?_⟩, ?_⟩
      · rw [hTrim]
        exact hLabel.no_line
      · calc labelOf (Text.trimBlanks ([' '] ++ text.toList))
          _ = labelOf text.toList := by rw [Text.trimBlanks_append hBlank, hTrim]
          _ = some text := by rw [labelOf, if_neg hLabel.ne_nil, String.ofList_toList]

/-- The parts of an edge that a shorthand can declare, without blanks to spare. -/
def Writable.parts (h : e.Writable) : Shorthand where
  lead := []
  source := e.source.toList
  gap := []
  start := e.style.arrowStart
  shape := e.style.shape
  stop := e.style.arrowEnd
  skip := []
  target := e.target.toList
  tail := printedTail e.label
  blank_lead := by simp
  name_source := h.source
  blank_gap := by simp
  blank_skip := by simp
  name_target := h.target
  tail_tail := (labelOf_printedTail h.label).1

theorem toList_symbol (style : EdgeStyle) : style.symbol.toList =
    mark '<' style.arrowStart ++ (style.shape.symbol.toList ++ mark '>' style.arrowEnd) := by
  rw [EdgeStyle.symbol, String.toList_append, String.toList_append, List.append_assoc]
  cases style.arrowStart <;> cases style.arrowEnd <;> rfl

theorem Writable.toList_print (h : e.Writable) : e.print.toList =
    e.source.toList ++ e.style.symbol.toList ++ e.target.toList ++ printedTail e.label := by
  rw [print]
  cases hLabel : e.label with
  | none => simp [printedTail]
  | some text =>
      have hText : text.isEmpty = false := by simpa using (h.label text hLabel).ne_nil
      simp [printedTail, hText]

theorem Writable.write_parts (h : e.Writable) : h.parts.write = e.print := by
  apply String.toList_injective
  rw [h.toList_print, toList_symbol, Shorthand.write, String.toList_ofList]
  simp only [Shorthand.afterSource, Shorthand.afterShape, parts, List.nil_append,
    List.append_assoc]

theorem Writable.edge_parts (h : e.Writable) : h.parts.edge = e := by
  have hSolid := h.solid
  have hLabel := (labelOf_printedTail h.label).2
  obtain ⟨source, target, ⟨shape, start, stop, dashed⟩, label⟩ := e
  simp only [Shorthand.edge, parts, String.ofList_toList, hLabel, ← hSolid]

theorem Writable.ofValue_text (h : e.Writable) : ofValue (.text e.print) = .ok e :=
  ofValue_text_eq_ok_iff.mpr ⟨h.parts, h.write_parts, h.edge_parts⟩

/-- Whatever a shorthand declares can be declared without blanks to spare. -/
theorem Shorthand.writable_edge (p : Shorthand) : p.edge.Writable where
  source := by
    rw [edge, String.toList_ofList]
    exact p.name_source
  target := by
    rw [edge, String.toList_ofList]
    exact p.name_target
  solid := rfl
  label := by
    intro text hText
    obtain ⟨hNil, rfl⟩ : Text.trimBlanks p.tail ≠ [] ∧
        String.ofList (Text.trimBlanks p.tail) = text := by
      simpa [edge, labelOf] using hText
    rw [String.toList_ofList]
    exact ⟨hNil, (isTail_iff.mp p.tail_tail).2, Text.opens_trimBlanks p.tail,
      Text.ends_trimBlanks p.tail⟩

/-- An edge that a shorthand can declare is read back from its printed form, and from every mapping
that says the same. Every edge read from a text is such an edge, so that its printed form is read
as that text is. -/
theorem ofValue_print (e : EdgeSpec) (s : String) :
    (e.Writable → ofValue (.text e.print) = .ok e ∧
        ∀ entries, e.DeclaredBy entries → ofValue (.mapping entries) = ofValue (.text e.print)) ∧
      (ofValue (.text s) = .ok e →
        e.Writable ∧ ofValue (.text e.print) = ofValue (.text s)) := by
  constructor
  · intro h
    refine ⟨h.ofValue_text, fun entries hEntries => ?_⟩
    rw [ofValue_mapping hEntries, h.ofValue_text]
  · intro hRead
    obtain ⟨p, _, rfl⟩ := ofValue_text_eq_ok_iff.mp hRead
    have hWritable := p.writable_edge
    exact ⟨hWritable, hWritable.ofValue_text.trans hRead.symm⟩

/-- An edge with both arrowheads and blanks within its label. -/
def labelled : EdgeSpec := ⟨"a1", "Q", ⟨.curvedStart, true, true, false⟩, some "t  x"⟩

/-- It is read back from its printed form, from its entries, and with blanks to spare. -/
theorem ofValue_print_labelled :
    labelled.Writable ∧ ofValue (.text "a1<-~>Q t  x") = .ok labelled ∧
      ofValue (.mapping labelled.entries) = .ok labelled ∧
      ofValue (.text "a1<-~>Q t  x") = ofValue (.text " a1 <-~>\nQ \n t  x ") := by
  have hWritable : labelled.Writable := by
    refine ⟨isName_iff.mpr ⟨by decide, List.all_eq_true.mp (by decide)⟩,
      isName_iff.mpr ⟨by decide, List.all_eq_true.mp (by decide)⟩, rfl, ?_⟩
    rintro _ ⟨⟩
    constructor <;> decide
  have hSpaced : ofValue (.text " a1 <-~>\nQ \n t  x ") = .ok labelled := rfl
  obtain ⟨hPrinted, hMapped⟩ := (ofValue_print labelled "").1 hWritable
  obtain ⟨_, hSame⟩ := (ofValue_print labelled _).2 hSpaced
  exact ⟨hWritable, hPrinted, (hMapped _ (declaredBy_entries rfl)).trans hPrinted, hSame⟩

end EdgeSpec
end TimingDiagram
