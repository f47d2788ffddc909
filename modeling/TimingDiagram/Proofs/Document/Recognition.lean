import TimingDiagram.Proofs.Document.Loading
import TimingDiagram.Proofs.Document.Nesting
import TimingDiagram.Proofs.Options.Recognition

/-! Documents with unknown keys. Each mapping of a document is read through the keys that mean anything
in its place; without the others it is read as before, and without a word. -/
namespace TimingDiagram

theorem Signal.declared_restrict {K : Type} [Scalar K] (entries : List (String × Value)) :
    (declared (Value.restrict keys.contains entries) : Except Error (Signal K)) = declared entries := by
  unfold declared
  simp (disch := decide) only [Value.lookupD_restrict]

/-- A signal is read without a word when the unknown keys are left out. -/
theorem Signal.ofEntries_restrict {K : Type} [Scalar K] {entries : List (String × Value)} {s : Signal K}
    (h : (ofEntries entries).outcome = .ok s) :
    ofEntries (Value.restrict keys.contains entries) = pure s := by
  apply Logged.eq_pure
  · simp [ofEntries, unknownKeys, Value.restrict]
  · exact (declared_restrict entries).trans h

namespace EdgeSpec

def keys : List String := ["from", "to", "shape", "arrow", "dashed", "label"]

theorem ofMapping_restrict {entries : List (String × Value)} {e : EdgeSpec}
    (h : ofMapping entries = .ok e) : ofMapping (Value.restrict keys.contains entries) = .ok e := by
  rw [ofMapping] at h ⊢
  simp (disch := decide) only [Value.lookupD_restrict]
  split at h
  · exact h
  · cases h

theorem ofValue_withKeys {value : Value} {e : EdgeSpec} (h : ofValue value = .ok e) :
    ofValue (value.withKeys keys.contains) = .ok e := by
  cases value with
  | mapping entries => exact ofMapping_restrict h
  | _ => exact h

end EdgeSpec

namespace Document

/-- The edges without their unknown keys. -/
def knownEdges : Value → Value
  | .list edges => .list (edges.map (Value.withKeys EdgeSpec.keys.contains))
  | value => value

theorem parseEdges_known {raw : Value} {edges : List EdgeSpec} (h : parseEdges raw = .ok edges) :
    parseEdges (knownEdges raw) = .ok edges := by
  cases raw with
  | list entries =>
      refine mapM_map_eq_ok ?_ h
      intro value e
      exact EdgeSpec.ofValue_withKeys
  | _ => exact h

theorem declaredCaption_restrict (part : String) (entries : List (String × Value)) :
    declaredCaption part (Value.restrict captionKeys.contains entries) =
      declaredCaption part entries := by
  unfold declaredCaption
  simp (disch := decide) only [Value.lookupD_restrict]

theorem parseCaption_withKeys {part : String} {raw : Value} {caption : Option Caption}
    (h : (parseCaption part raw).outcome = .ok caption) :
    parseCaption part (raw.withKeys captionKeys.contains) = pure caption := by
  cases raw with
  | mapping entries =>
      apply Logged.eq_pure
      · simp [parseCaption, Value.withKeys, unknownCaptionKeys, Value.restrict]
      · rw [← h]
        exact congrArg (Except.map some) (declaredCaption_restrict part entries)
  | null =>
      cases h
      rfl
  | _ => cases h

mutual

/-- The item without the unknown keys of its signals. -/
def knownItem : Value → Value
  | .mapping entries => .mapping (Value.restrict Signal.keys.contains entries)
  | .list items => .list (knownItems items)
  | value => value

def knownItems : List Value → List Value
  | [] => []
  | value :: rest => knownItem value :: knownItems rest

end

section Items

variable {K : Type} [Scalar K]

theorem firstText_knownItems (entries : List Value) :
    firstText (knownItems entries) = firstText entries := by
  induction entries with
  | nil => rfl
  | cons value rest ih =>
      cases value with
      | text s => rfl
      | _ => exact ih

/-- A lane is read without a word when the unknown keys are left out. It does not become blank: a signal
without any known key is refused. -/
theorem readLane_known {entries : List (String × Value)} {item : Item (Signal K)}
    (h : (readLane entries).outcome = .ok item) :
    readLane (Value.restrict Signal.keys.contains entries) = pure item := by
  rcases eq_or_ne entries [] with rfl | hSome
  · cases h
    rfl
  · rw [outcome_readLane hSome] at h
    obtain ⟨s, hs, rfl⟩ := map_eq_ok_iff.mp h
    have hKnown := Signal.ofEntries_restrict hs
    rw [readLane, if_neg, hKnown, pure_bind]
    intro hEmpty
    rw [List.isEmpty_iff.mp hEmpty] at hKnown
    cases hKnown

/-- What is refused may be read without its unknown keys. -/
example : (readLane [("color", .null)] : Logged (Item (Signal K))).outcome =
      .error (.malformed .noWave {}) ∧
    (readLane [] : Logged (Item (Signal K))) = pure .spacer := ⟨rfl, rfl⟩

theorem readGroup_known {label : Option String} {entries : List Value} {item : Item (Signal K)}
    (hMembers : ∀ members : List (Item (Signal K)), (descendAll entries).outcome = .ok members →
      descendAll (knownItems entries) = pure members)
    (h : (readGroup label entries (descendAll entries)).outcome = .ok item) :
    readGroup label (knownItems entries) (descendAll (knownItems entries)) = pure item := by
  rw [readGroup] at h ⊢
  rw [firstText_knownItems]
  split at h
  · cases h
  · rw [Logged.outcome_bind] at h
    obtain ⟨members, hInner, h⟩ := bind_eq_ok_iff.mp h
    cases h
    rw [hMembers members hInner, pure_bind]

mutual

theorem descend_known (value : Value) {item : Item (Signal K)}
    (h : (descend value).outcome = .ok item) : descend (knownItem value) = pure item := by
  cases value with
  | mapping entries => exact readLane_known h
  | list raw =>
      cases raw with
      | nil =>
          cases h
          rfl
      | cons v vs =>
          -- The first entry is a member unless it is a label.
          have hRest := descendAll_known vs
          have hAll := descendAll_known (v :: vs)
          cases v with
          | text label => exact readGroup_known hRest h
          | _ => exact readGroup_known hAll h
  | _ => cases h

theorem descendAll_known (values : List Value) (items : List (Item (Signal K)))
    (h : (descendAll values).outcome = .ok items) : descendAll (knownItems values) = pure items := by
  cases values with
  | nil =>
      cases h
      rfl
  | cons value rest =>
      rw [descendAll, Logged.outcome_bind] at h
      obtain ⟨item, hItem, h⟩ := bind_eq_ok_iff.mp h
      rw [Logged.outcome_bind] at h
      obtain ⟨more, hMore, h⟩ := bind_eq_ok_iff.mp h
      cases h
      rw [knownItems, descendAll, descend_known value hItem, descendAll_known rest more hMore,
        pure_bind, pure_bind]

end

theorem parseItems_known {raw : Value} {items : List (Item (Signal K))}
    (h : (parseItems raw).outcome = .ok items) : parseItems (knownItem raw) = pure items := by
  rw [parseItems_eq_descendItems] at h ⊢
  cases raw with
  | list entries => exact descendAll_known entries items h
  | _ => cases h

end Items

def keys : List String := ["signal", "edge", "config", "head", "foot"]

/-- An entry of a document without the unknown keys in it. -/
def knownPart (key : String) (value : Value) : Value :=
  match key with
  | "signal" => knownItem value
  | "edge" => knownEdges value
  | "config" => Options.knownConfig value
  | "head" | "foot" => value.withKeys captionKeys.contains
  | _ => value

/-- The entries of a document with known keys, without the unknown ones in them. -/
def knownEntries (entries : List (String × Value)) : List (String × Value) :=
  Value.revise knownPart (Value.restrict keys.contains entries)

/-- A document without its unknown keys. -/
def known : Value → Value
  | .mapping entries => .mapping (knownEntries entries)
  | value => value

theorem lookup_knownEntries (entries : List (String × Value)) {key : String}
    (hKey : keys.contains key = true) :
    Value.lookup key (knownEntries entries) = (Value.lookup key entries).map (knownPart key) := by
  rw [knownEntries, Value.lookup_revise, Value.lookup_restrict, if_pos hKey]

theorem lookupD_knownEntries (entries : List (String × Value)) {key : String} {default : Value}
    (hKey : keys.contains key = true) (hDefault : knownPart key default = default) :
    Value.lookupD key (knownEntries entries) default =
      knownPart key (Value.lookupD key entries default) := by
  rw [knownEntries, Value.lookupD_revise _ _ hDefault, Value.lookupD_restrict _ _ _ hKey]

section Parsing

variable {K : Type} [Scalar K] [Mul K] [LT K] [LE K] [DecidableLT K] [DecidableLE K] {raw : Value}
  {base : Options K} {d : Document K}

/-- A document that is accepted is read without a word when the unknown keys are left out. -/
theorem parse_known (h : (parse raw base).outcome = .ok d) : parse (known raw) base = pure d := by
  obtain ⟨entries, signal, rfl, hSignal, hItems, hEdges, hOptions, hHead, hFoot⟩ :=
    parse_eq_ok_iff.mp h
  have hSignal : Value.lookup "signal" (knownEntries entries) = some (knownItem signal) := by
    rw [lookup_knownEntries entries (by decide), hSignal]
    rfl
  have hEdges : parseEdges (Value.lookupD "edge" (knownEntries entries) (.list [])) = .ok d.edges := by
    rw [lookupD_knownEntries entries (by decide) rfl]
    exact parseEdges_known hEdges
  have hOptions : Options.ofConfig (Value.lookupD "config" (knownEntries entries) .null) base =
      pure d.options := by
    rw [lookupD_knownEntries entries (by decide) rfl]
    exact Options.ofConfig_known hOptions
  have hHead : parseCaption "head" (Value.lookupD "head" (knownEntries entries) .null) =
      pure d.head := by
    rw [lookupD_knownEntries entries (by decide) rfl]
    exact parseCaption_withKeys hHead
  have hFoot : parseCaption "foot" (Value.lookupD "foot" (knownEntries entries) .null) =
      pure d.foot := by
    rw [lookupD_knownEntries entries (by decide) rfl]
    exact parseCaption_withKeys hFoot
  simp only [known, parse, hSignal, parseItems_known hItems, hEdges, hOptions, hHead, hFoot, pure_bind]
  rfl

end Parsing

end Document

section Rendering

variable {K : Type} [Add K] [Sub K] [Mul K] [Div K] [LT K] [LE K] [DecidableLT K] [DecidableLE K]
  [Max K] [Min K] [BEq K] [Scalar K] {raw : Value} {options : Option (Options K)} {d : Document K}

/-- Unknown keys do not show. A raw document that is accepted is accepted without them, wherever they are,
and is read as the same document; nothing is told of it then, and the figure is the same. -/
theorem Description.render_known (h : ((Description.raw raw).load options).outcome = .ok d) :
    (Description.raw (Document.known raw)).load options = pure d ∧
      ((Description.raw (Document.known raw)).render options).outcome =
        ((Description.raw raw).render options).outcome := by
  have hKnown : (Description.raw (Document.known raw)).load options = pure d := Document.parse_known h
  refine ⟨hKnown, ?_⟩
  rw [render, render, hKnown, pure_bind, Logged.outcome_bind, h, ok_bind]

end Rendering

namespace Document

def annotatedLanes : Value := .list [
  .list [.text "bus", .mapping [("name", .text "a"), ("wave", .text "01"), ("color", .text "red")]],
  .mapping []]

def annotatedConfig : Value := .mapping [
  ("zoom", .bool true),
  ("theme", .mapping [("dark", .bool true), ("stroke", .text "#333333")])]

/-- A document with an unknown key in each of its mappings, and with no other key in one of them. -/
def annotated : Value := .mapping [
  ("note", .text "draft"),
  ("signal", annotatedLanes),
  ("edge", .list [.mapping [("from", .text "a"), ("weight", .number (.whole 2)), ("to", .text "b")]]),
  ("head", .mapping [("text", .text "T"), ("size", .null)]),
  ("foot", .mapping [("align", .text "left")]),
  ("config", annotatedConfig)]

def plain : Value := .mapping [
  ("signal", .list [
    .list [.text "bus", .mapping [("name", .text "a"), ("wave", .text "01")]],
    .mapping []]),
  ("edge", .list [.mapping [("from", .text "a"), ("to", .text "b")]]),
  ("head", .mapping [("text", .text "T")]),
  ("foot", .mapping []),
  ("config", .mapping [("theme", .mapping [("stroke", .text "#333333")])])]

theorem known_annotated : known annotated = plain := by rfl

theorem load_annotated : ∃ d : Document Quantity,
    ((Description.raw annotated).load none).outcome = .ok d := by
  obtain ⟨items, hItems⟩ : ∃ items : List (Item (Signal Quantity)),
      (descendItems annotatedLanes).outcome = .ok items := ⟨_, rfl⟩
  obtain ⟨o, hOptions⟩ : ∃ o : Options Quantity,
      (Options.ofConfig annotatedConfig Options.default).outcome = .ok o := ⟨_, rfl⟩
  rw [← parseItems_eq_descendItems] at hItems
  exact ⟨⟨items, _, o, _, _⟩, parse_eq_ok_iff.mpr ⟨_, _, rfl, rfl, hItems, rfl, hOptions, rfl, rfl⟩⟩

end Document

/-- Without the notes, the colour and the others the document is read and drawn as before. -/
theorem Description.render_known_annotated : ∃ d : Document Quantity,
    ((Description.raw Document.annotated).load none).outcome = .ok d ∧
      (Description.raw Document.plain).load none = pure d ∧
      ((Description.raw Document.plain : Description Quantity).render none).outcome =
        ((Description.raw Document.annotated).render none).outcome := by
  obtain ⟨d, hd⟩ := Document.load_annotated
  rw [← Document.known_annotated]
  exact ⟨d, hd, Description.render_known hd⟩

end TimingDiagram
