import TimingDiagram.Document.Parse
import TimingDiagram.Proofs.Outcome

/-! Nested groups read by recursion. The list of open groups says what is left to read around a
group; reading what is left, item by item, is what the reader without recursion does. -/
namespace TimingDiagram
namespace Document

variable {K : Type} [Scalar K]

/-- The label and the entries of a group: its first entry is its label if it is a text. -/
def groupParts : List Value → Option String × List Value
  | .text label :: entries => (some label, entries)
  | entries => (none, entries)

/-- The first text among some entries. -/
def firstText (entries : List Value) : Option String :=
  entries.findSome? fun | .text s => some s | _ => none

/-- The lane that a mapping describes; an empty one is blank. -/
def readLane (entries : List (String × Value)) : Logged (Item (Signal K)) :=
  if entries.isEmpty then pure .spacer else do return .signal (← Signal.ofEntries entries)

/-- The group with a label and some entries, when its members are read by a computation. A second
label is told before anything of its members is. -/
def readGroup (label : Option String) (entries : List Value)
    (members : Logged (List (Item (Signal K)))) : Logged (Item (Signal K)) :=
  match firstText entries with
  | some second => Logged.fail (defect (.secondLabel label second))
  | none => do return .group label (← members)

mutual

/-- The item that a value describes: a lane, or a group of the items that its entries describe. -/
def descend : Value → Logged (Item (Signal K))
  | .mapping entries => readLane entries
  | .list (.text label :: entries) => readGroup (some label) entries (descendAll entries)
  | .list entries => readGroup none entries (descendAll entries)
  | value => Logged.fail (defect (.strayItem value))

/-- The items that some values describe, one after the other. -/
def descendAll : List Value → Logged (List (Item (Signal K)))
  | [] => pure []
  | value :: rest => do
    let item ← descend value
    let items ← descendAll rest
    return item :: items

end

/-- What is left to read once the innermost of some open groups has all its members. -/
def resume (label : Option String) (members : List (Item (Signal K))) :
    List (OpenGroup K) → Logged (List (Item (Signal K)))
  | [] => pure members
  | parent :: outer => do
    let more ← descendAll parent.rest
    resume parent.label (parent.members.reverse ++ .group label members :: more) outer

theorem descend_list (raw : List Value) : (descend (.list raw) : Logged (Item (Signal K))) =
    readGroup (groupParts raw).1 (groupParts raw).2 (descendAll (groupParts raw).2) := by
  cases raw with
  | nil => rfl
  | cons v vs => cases v <;> rfl

theorem splitGroup_eq (raw : List Value) : splitGroup raw =
    match firstText (groupParts raw).2 with
    | some second => .error (defect (.secondLabel (groupParts raw).1 second))
    | none => .ok (groupParts raw) := by
  cases raw with
  | nil => rfl
  | cons v vs => cases v <;> rfl

theorem descend_of_splitGroup_error {raw : List Value} {e : Error}
    (h : splitGroup raw = .error e) :
    (descend (.list raw) : Logged (Item (Signal K))) = Logged.fail e := by
  rw [splitGroup_eq] at h
  rw [descend_list, readGroup]
  split at h
  · cases h
    rfl
  · cases h

/-- The second label comes before what the inner group holds. -/
example : (descend (.list [.text "a", .list [.null], .text "b"]) : Logged (Item (Signal K))) =
    Logged.fail (defect (.secondLabel (some "a") "b")) := rfl

theorem descend_of_splitGroup {raw entries : List Value} {label : Option String}
    (h : splitGroup raw = .ok (label, entries)) :
    (descend (.list raw) : Logged (Item (Signal K))) =
      descendAll entries >>= fun members => pure (.group label members) := by
  rw [splitGroup_eq] at h
  rw [descend_list, readGroup]
  split at h
  · cases h
  · rw [Except.ok.inj h]

/-- The reader reads what is left of the innermost group and then of those around it. -/
theorem readItems_eq_resume (label : Option String) (members : List (Item (Signal K)))
    (rest : List Value) (outer : List (OpenGroup K)) :
    readItems label members rest outer =
      descendAll rest >>= fun more => resume label (members.reverse ++ more) outer := by
  -- The induction is on the steps of the reader: `resume` gains a group where one opens, and takes
  -- its own step where one closes.
  induction label, members, rest, outer using readItems.induct with
  | case1 label members =>
      rw [readItems, descendAll, pure_bind, resume, List.append_nil]
  | case2 label members parent outer ih =>
      rw [List.unattach_reverse, List.unattach_attach] at ih
      rw [readItems, ih, descendAll, pure_bind, List.append_nil, resume]
      simp only [List.reverse_cons, List.append_assoc, List.singleton_append]
  | case3 label members rest outer ih =>
      rw [readItems, ih, descendAll, descend, readLane, if_pos List.isEmpty_nil]
      simp only [pure_bind, bind_assoc, List.reverse_cons, List.append_assoc, List.singleton_append]
  | case4 label members entries rest outer hEntries ih =>
      have hSome : ¬ entries.isEmpty = true := by simpa using hEntries
      rw [readItems, descendAll, descend, readLane, if_neg hSome]
      · simp only [ih, pure_bind, bind_assoc, List.reverse_cons, List.append_assoc,
          List.singleton_append]
      · exact hEntries
  | case5 label members raw rest outer e hSplit =>
      rw [readItems, descendAll, descend_of_splitGroup_error hSplit, Logged.fail_bind,
        Logged.fail_bind]
      split <;> simp_all
  | case6 label members raw rest outer inner entries hSplit _ ih =>
      rw [readItems, descendAll, descend_of_splitGroup hSplit]
      split
      · simp_all
      · rename_i inner' entries' hSplit'
        rw [hSplit] at hSplit'
        cases hSplit'
        simp only [ih, resume, bind_assoc, pure_bind, List.reverse_nil, List.nil_append]
  | case7 label members outer value tail hBlank hMapping hList =>
      rw [readItems, descendAll, descend, Logged.fail_bind, Logged.fail_bind]
      · exact hMapping
      · exact fun _ _ => hList _
      · exact hList
      all_goals assumption

mutual

/-- What comes of reading a value: a lane of a mapping, and of a list the group of what its entries
are read as, unless a second text is among them; nothing else is read. -/
inductive Reads : Value → Except Error (Item (Signal K)) → Prop
  | stray {value : Value} (mapping : ∀ entries, value ≠ .mapping entries)
      (list : ∀ raw, value ≠ .list raw) : Reads value (.error (defect (.strayItem value)))
  | blank : Reads (.mapping []) (.ok .spacer)
  | lane {entries : List (String × Value)} (nonempty : entries ≠ []) :
      Reads (.mapping entries) ((Signal.ofEntries entries).outcome.map Item.signal)
  | secondLabel {raw before after : List Value} {label : Option String} {second : String}
      (parts : groupParts raw = (label, before ++ .text second :: after))
      (first : ∀ v ∈ before, v.isText = false) :
      Reads (.list raw) (.error (defect (.secondLabel label second)))
  | group {raw entries : List Value} {label : Option String} {members : List (Item (Signal K))}
      (parts : groupParts raw = (label, entries)) (single : ∀ v ∈ entries, v.isText = false)
      (inner : ReadsAll entries (.ok members)) : Reads (.list raw) (.ok (.group label members))
  | member {raw entries : List Value} {label : Option String} {e : Error}
      (parts : groupParts raw = (label, entries)) (single : ∀ v ∈ entries, v.isText = false)
      (inner : ReadsAll entries (.error e)) : Reads (.list raw) (.error e)

/-- What comes of reading some values in their order, up to the first that is refused. -/
inductive ReadsAll : List Value → Except Error (List (Item (Signal K))) → Prop
  | nil : ReadsAll [] (.ok [])
  | cons {value : Value} {rest : List Value} {item : Item (Signal K)}
      {items : List (Item (Signal K))} (first : Reads value (.ok item))
      (others : ReadsAll rest (.ok items)) : ReadsAll (value :: rest) (.ok (item :: items))
  | here {value : Value} {rest : List Value} {e : Error} (first : Reads value (.error e)) :
      ReadsAll (value :: rest) (.error e)
  | later {value : Value} {rest : List Value} {item : Item (Signal K)} {e : Error}
      (first : Reads value (.ok item)) (others : ReadsAll rest (.error e)) :
      ReadsAll (value :: rest) (.error e)

end

theorem firstText_eq_none {entries : List Value} (h : ∀ v ∈ entries, v.isText = false) :
    firstText entries = none := by
  apply List.findSome?_eq_none_iff.mpr
  intro v hv
  cases v with
  | text s => cases h _ hv
  | _ => rfl

theorem firstText_append {before after : List Value} {second : String}
    (h : ∀ v ∈ before, v.isText = false) :
    firstText (before ++ .text second :: after) = some second := by
  have hBefore := firstText_eq_none h
  rw [firstText] at hBefore ⊢
  rw [List.findSome?_append, hBefore]
  rfl

theorem firstText_cases (entries : List Value) : (∀ v ∈ entries, v.isText = false) ∨
    ∃ before second after, entries = before ++ .text second :: after ∧
      ∀ v ∈ before, v.isText = false := by
  cases hFind : entries.find? Value.isText with
  | none => exact .inl (by simpa using List.find?_eq_none.mp hFind)
  | some v =>
      obtain ⟨hText, before, after, rfl, hBefore⟩ := List.find?_eq_some_iff_append.mp hFind
      cases v with
      | text second => exact .inr ⟨before, second, after, rfl, by simpa using hBefore⟩
      | _ => cases hText

/-- A group is read as its entries are. -/
theorem reads_list_iff {raw : List Value} {x : Except Error (Item (Signal K))}
    (h : ∀ y, ReadsAll (groupParts raw).2 y ↔
      (descendAll (groupParts raw).2 : Logged (List (Item (Signal K)))).outcome = y) :
    Reads (.list raw) x ↔ (descend (.list raw) : Logged (Item (Signal K))).outcome = x := by
  rw [descend_list]
  constructor
  · intro hReads
    cases hReads with
    | stray _ hList => exact absurd rfl (hList raw)
    | secondLabel hParts hFirst =>
        rw [readGroup, hParts, firstText_append hFirst]
        rfl
    | group hParts hSingle hInner =>
        rw [hParts] at h ⊢
        rw [readGroup, firstText_eq_none hSingle]
        simp only [Logged.outcome_bind, (h _).mp hInner, ok_bind, Logged.outcome_pure]
    | member hParts hSingle hInner =>
        rw [hParts] at h ⊢
        rw [readGroup, firstText_eq_none hSingle]
        simp only [Logged.outcome_bind, (h _).mp hInner, error_bind]
  · rintro rfl
    obtain hSingle | ⟨before, second, after, hEntries, hFirst⟩ :=
      firstText_cases (groupParts raw).2
    · have hInner := (h _).mpr rfl
      rw [readGroup, firstText_eq_none hSingle]
      simp only [Logged.outcome_bind, Logged.outcome_pure]
      generalize (descendAll (groupParts raw).2 : Logged (List (Item (Signal K)))).outcome = y
        at hInner
      cases y with
      | error e => exact .member rfl hSingle hInner
      | ok members => exact .group rfl hSingle hInner
    · rw [readGroup, hEntries, firstText_append hFirst]
      exact .secondLabel (Prod.ext rfl hEntries) hFirst

theorem outcome_readLane {entries : List (String × Value)} (h : entries ≠ []) :
    (readLane entries : Logged (Item (Signal K))).outcome =
      (Signal.ofEntries entries).outcome.map Item.signal := by
  rw [readLane, if_neg (by simpa using h)]
  simp only [Logged.outcome_bind, Logged.outcome_pure]
  rfl

/-- A lane is read on its own. -/
theorem reads_mapping_iff {entries : List (String × Value)}
    {x : Except Error (Item (Signal K))} :
    Reads (.mapping entries) x ↔ (readLane entries : Logged (Item (Signal K))).outcome = x := by
  constructor
  · intro hReads
    cases hReads with
    | stray hMapping _ => exact absurd rfl (hMapping entries)
    | blank => rfl
    | lane hNonempty => exact outcome_readLane hNonempty
  · rintro rfl
    cases entries with
    | nil => exact .blank
    | cons entry entries =>
        rw [outcome_readLane (List.cons_ne_nil _ _)]
        exact .lane (List.cons_ne_nil _ _)

/-- A value that is neither a mapping nor a list is refused. -/
theorem reads_stray_iff {value : Value} {x : Except Error (Item (Signal K))}
    (hMapping : ∀ entries, value ≠ .mapping entries) (hList : ∀ raw, value ≠ .list raw) :
    Reads value x ↔ .error (defect (.strayItem value)) = x := by
  constructor
  · intro hReads
    cases hReads with
    | stray _ _ => rfl
    | blank => exact absurd rfl (hMapping _)
    | lane _ => exact absurd rfl (hMapping _)
    | secondLabel _ _ => exact absurd rfl (hList _)
    | group _ _ _ => exact absurd rfl (hList _)
    | member _ _ _ => exact absurd rfl (hList _)
  · rintro rfl
    exact .stray hMapping hList

/-- Some values are read up to the first that is refused. -/
theorem readsAll_cons_iff {value : Value} {rest : List Value}
    {x : Except Error (List (Item (Signal K)))}
    (hFirst : ∀ y, Reads value y ↔ (descend value : Logged (Item (Signal K))).outcome = y)
    (hRest : ∀ y, ReadsAll rest y ↔
      (descendAll rest : Logged (List (Item (Signal K)))).outcome = y) :
    ReadsAll (value :: rest) x ↔
      (descendAll (value :: rest) : Logged (List (Item (Signal K)))).outcome = x := by
  simp only [descendAll, Logged.outcome_bind, Logged.outcome_pure]
  constructor
  · intro hReads
    cases hReads with
    | cons hHead hTail => simp only [(hFirst _).mp hHead, (hRest _).mp hTail, ok_bind]
    | here hHead => simp only [(hFirst _).mp hHead, error_bind]
    | later hHead hTail => simp only [(hFirst _).mp hHead, (hRest _).mp hTail, ok_bind, error_bind]
  · rintro rfl
    cases hHead : (descend value : Logged (Item (Signal K))).outcome with
    | error e => exact .here ((hFirst _).mpr hHead)
    | ok item =>
        cases hTail : (descendAll rest : Logged (List (Item (Signal K)))).outcome with
        | error e => exact .later ((hFirst _).mpr hHead) ((hRest _).mpr hTail)
        | ok items => exact .cons ((hFirst _).mpr hHead) ((hRest _).mpr hTail)

mutual

theorem reads_iff (value : Value) {x : Except Error (Item (Signal K))} :
    Reads value x ↔ (descend value : Logged (Item (Signal K))).outcome = x := by
  cases value with
  | list raw =>
      apply reads_list_iff
      intro y
      -- The recursion is on the entries after the label, which are a part of `raw` only once it is
      -- known whether there is one.
      cases raw with
      | nil => exact readsAll_iff []
      | cons v vs =>
          have h := readsAll_iff (v :: vs) (x := y)
          cases v with
          | text s => exact readsAll_iff vs
          | null => exact h
          | bool b => exact h
          | number n => exact h
          | list items => exact h
          | mapping entries => exact h
  | mapping entries => exact reads_mapping_iff
  | null => exact reads_stray_iff nofun nofun
  | bool b => exact reads_stray_iff nofun nofun
  | number n => exact reads_stray_iff nofun nofun
  | text s => exact reads_stray_iff nofun nofun

theorem readsAll_iff (values : List Value) {x : Except Error (List (Item (Signal K)))} :
    ReadsAll values x ↔ (descendAll values : Logged (List (Item (Signal K)))).outcome = x := by
  cases values with
  | nil =>
      constructor
      · intro hReads
        cases hReads
        rfl
      · rintro rfl
        exact .nil
  | cons value rest =>
      exact readsAll_cons_iff (fun _ => reads_iff value) (fun _ => readsAll_iff rest)

end

/-- The items that the signal list describes, read by recursion. -/
def descendItems : Value → Logged (List (Item (Signal K)))
  | .list entries => descendAll entries
  | _ => Logged.fail (defect .signalListKind)

theorem parseItems_eq_descendItems (raw : Value) :
    (parseItems raw : Logged (List (Item (Signal K)))) = descendItems raw := by
  cases raw with
  | list entries =>
      rw [parseItems, readItems_eq_resume, descendItems]
      simp only [resume, List.reverse_nil, List.nil_append, bind_pure]
  | _ => rfl

/-- The reader of nested groups is recursive descent: it tells the same and has the same outcome.
What comes of a list of signals is what comes of its entries in their order, groups in groups, up
to the first that is refused; anything but a list is refused as a whole. -/
theorem parseItems_descends (raw : Value) :
    (parseItems raw : Logged (List (Item (Signal K)))) = descendItems raw ∧
      (∀ entries, raw = .list entries → ∀ x,
        (parseItems raw : Logged (List (Item (Signal K)))).outcome = x ↔ ReadsAll entries x) ∧
      ((∀ entries, raw ≠ .list entries) →
        (parseItems raw : Logged (List (Item (Signal K)))).outcome =
          .error (defect .signalListKind)) := by
  rw [parseItems_eq_descendItems]
  refine ⟨rfl, ?_, ?_⟩
  · rintro entries rfl x
    exact (readsAll_iff entries).symm
  · intro hKind
    cases raw with
    | list entries => exact absurd rfl (hKind entries)
    | _ => rfl

end Document
end TimingDiagram
