import TimingDiagram.Figure.Diagram
import TimingDiagram.Proofs.Document.Walk
import TimingDiagram.Proofs.Number.Exact

/-! What loading a description promises. Every signal of the document has a period, and its
options have passed their checks. -/
namespace TimingDiagram

/-- Options that a figure can be drawn with. -/
structure Options.Accepted {K : Type} [Field K] [LinearOrder K] (o : Options K) : Prop where
  cycleWidth : 0 < o.cycleWidth
  hscale : 0 < o.hscale
  gapShrink : 0 < o.gapShrink ∧ o.gapShrink ≤ 1
  waveHeight : 0 < o.waveHeight
  transition : o.transitionOffset * 2 ≤ o.cycleWidth * o.hscale
  colours : 8 ≤ o.backgrounds.length

/-- What loading promises of a document. -/
structure Document.Valid {K : Type} [Field K] [LinearOrder K] (d : Document K) : Prop where
  periods : ∀ s ∈ d.signals, 1 ≤ s.period
  options : d.options.Accepted

section Parsing

variable {K : Type} [Scalar K]

theorem Signal.one_le_of_periodOf {value : Value} {n : Nat} (h : periodOf value = .ok n) :
    1 ≤ n := by
  unfold periodOf at h
  split at h
  · split_ifs at h with hLow
    cases h
    omega
  · cases h

/-- A signal is declared with a period, the other entries checked before or after it. -/
theorem Signal.period_of_declared {entries : List (String × Value)} {s : Signal K}
    (h : Signal.declared entries = .ok s) : 1 ≤ s.period := by
  unfold Signal.declared at h
  simp only at h
  split at h
  · rw [pure_bind] at h
    split_ifs at h
    · cases h
    · obtain ⟨wave, _, h⟩ := bind_eq_ok_iff.mp h
      obtain ⟨cycles, _, h⟩ := bind_eq_ok_iff.mp h
      obtain ⟨data, _, h⟩ := bind_eq_ok_iff.mp h
      obtain ⟨node, _, h⟩ := bind_eq_ok_iff.mp h
      obtain ⟨period, hPeriod, h⟩ := bind_eq_ok_iff.mp h
      obtain ⟨given, _, h⟩ := bind_eq_ok_iff.mp h
      obtain ⟨phase, _, h⟩ := bind_eq_ok_iff.mp h
      cases h
      exact one_le_of_periodOf (mapError_eq_ok_iff.mp hPeriod)
  · cases h

namespace Document

/-- What holds of every signal that is read from a mapping holds of those of the items. The
groups that are open hold the signals read so far. -/
theorem readItems_all {P : Signal K → Prop} (hRead : ∀ entries s,
      (Signal.ofEntries entries : Logged (Signal K)).outcome = .ok s → P s)
    {label : Option String} {members items : List (Item (Signal K))} {rest : List Value}
    {outer : List (OpenGroup K)} (h : (readItems label members rest outer).outcome = .ok items)
    (hMembers : ∀ s ∈ Item.leavesAll members, P s)
    (hOuter : ∀ g ∈ outer, ∀ s ∈ Item.leavesAll g.members, P s) :
    ∀ s ∈ Item.leavesAll items, P s := by
  induction label, members, rest, outer using readItems.induct with
  | case1 label members =>
      rw [readItems] at h
      cases h
      simpa using hMembers
  | case2 label members parent outer ih =>
      rw [readItems] at h
      rw [List.unattach_reverse, List.unattach_attach] at ih
      obtain ⟨hParent, hOuter⟩ := List.forall_mem_cons.mp hOuter
      refine ih h (List.forall_mem_append.mpr ⟨?_, hParent⟩) hOuter
      simpa [Item.leaves] using hMembers
  | case3 label members rest outer ih =>
      rw [readItems] at h
      exact ih h (by simpa [Item.leavesAll, Item.leaves] using hMembers) hOuter
  | case4 label members entries rest outer hEntries ih =>
      rw [readItems, Logged.outcome_bind] at h
      · obtain ⟨s, hs, h⟩ := bind_eq_ok_iff.mp h
        exact ih s h (List.forall_mem_cons.mpr ⟨hRead entries s hs, hMembers⟩) hOuter
      · exact hEntries
  | case5 label members raw rest outer e hSplit =>
      rw [readItems] at h
      split at h
      · cases h
      · simp_all
  | case6 label members raw rest outer inner entries hSplit _ ih =>
      rw [readItems] at h
      split at h
      · cases h
      · rename_i inner' entries' hSplit'
        rw [hSplit] at hSplit'
        cases hSplit'
        exact ih h (by simp [Item.leavesAll]) (List.forall_mem_cons.mpr ⟨hMembers, hOuter⟩)
  | case7 label members outer value tail hBlank hMapping hList =>
      rw [readItems] at h
      · cases h
      all_goals assumption

variable [Mul K] [LT K] [LE K] [DecidableLT K] [DecidableLE K] {raw : Value} {base : Options K}
  {d : Document K}

/-- A document is read from a mapping, each of its parts from one entry. -/
theorem parse_eq_ok_iff : (parse raw base).outcome = .ok d ↔
    ∃ entries signal, raw = .mapping entries ∧ Value.lookup "signal" entries = some signal ∧
      (parseItems signal).outcome = .ok d.items ∧
      parseEdges (Value.lookupD "edge" entries (.list [])) = .ok d.edges ∧
      (Options.ofConfig (Value.lookupD "config" entries .null) base).outcome = .ok d.options ∧
      (parseCaption "head" (Value.lookupD "head" entries .null)).outcome = .ok d.head ∧
      (parseCaption "foot" (Value.lookupD "foot" entries .null)).outcome = .ok d.foot := by
  constructor
  · intro h
    unfold parse at h
    split at h
    · split at h
      · cases h
      · rename_i entries _ signal hSignal
        simp only [Logged.outcome_bind] at h
        obtain ⟨items, hItems, h⟩ := bind_eq_ok_iff.mp h
        obtain ⟨edges, hEdges, h⟩ := bind_eq_ok_iff.mp h
        obtain ⟨options, hOptions, h⟩ := bind_eq_ok_iff.mp h
        obtain ⟨head, hHead, h⟩ := bind_eq_ok_iff.mp h
        obtain ⟨foot, hFoot, h⟩ := bind_eq_ok_iff.mp h
        cases h
        exact ⟨entries, signal, rfl, hSignal, hItems, hEdges, hOptions, hHead, hFoot⟩
    · cases h
  · rintro ⟨entries, signal, rfl, hSignal, hItems, hEdges, hOptions, hHead, hFoot⟩
    simp only [parse, hSignal, Logged.outcome_bind, hItems, hEdges, hOptions, hHead, hFoot,
      Logged.outcome_liftM, ok_bind]
    rfl

theorem periods_of_parse (h : (parse raw base).outcome = .ok d) :
    ∀ s ∈ d.signals, 1 ≤ s.period := by
  obtain ⟨_, signal, _, _, hItems, _⟩ := parse_eq_ok_iff.mp h
  rw [signals, Item.signals_eq_leavesAll]
  unfold parseItems at hItems
  split at hItems
  · refine readItems_all (fun entries s hs => ?_) hItems (by simp [Item.leavesAll]) (by simp)
    exact Signal.period_of_declared hs
  · cases hItems

end Document

end Parsing

section Exact

variable {K : Type} [Field K] [LinearOrder K] [IsStrictOrderedRing K] [FloorRing K] [Scalar K]
  [ExactScalar K]

theorem Options.check_eq_ok_iff {o : Options K} : o.check = .ok () ↔ o.Accepted := by
  simp only [check, ExactScalar.number_eq, ExactScalar.checked_eq, Scalar.whole_eq, liftM_ok,
    ok_bind, throw_eq_error, error_bind, ite_error_eq_ok_iff, scaledCycleWidth, Int.cast_zero,
    Int.cast_one, Int.cast_ofNat, not_le, not_lt, Bool.not_eq_true, Bool.not_eq_false',
    Bool.and_eq_true, decide_eq_true_eq]
  constructor
  · rintro ⟨hWidth, hScale, hShrink, hHeight, hTransition, hColours, _⟩
    exact ⟨hWidth, hScale, hShrink, hHeight, hTransition, hColours⟩
  · intro h
    exact ⟨h.cycleWidth, h.hscale, h.gapShrink, h.waveHeight, h.transition, h.colours, rfl⟩

theorem Options.accepted_default : (default : Options K).Accepted := by
  constructor <;> simp only [default, ExactScalar.fraction_eq] <;> norm_num
  decide

/-- The options of a document have passed their checks, or are those it was given. -/
theorem Options.accepted_of_ofConfig {config : Value} {base o : Options K} (hBase : base.Accepted)
    (h : (ofConfig config base).outcome = .ok o) : o.Accepted := by
  unfold ofConfig at h
  split_ifs at h with hBlank
  · cases h
    exact hBase
  · split at h
    · simp only [Logged.outcome_bind] at h
      obtain ⟨merged, _, h⟩ := bind_eq_ok_iff.mp h
      obtain ⟨applied, _, h⟩ := bind_eq_ok_iff.mp h
      obtain ⟨_, hCheck, h⟩ := bind_eq_ok_iff.mp h
      cases h
      exact check_eq_ok_iff.mp hCheck
    · cases h

theorem Document.valid_of_parse {raw : Value} {base : Options K} {d : Document K}
    (hBase : base.Accepted) (h : (parse raw base).outcome = .ok d) : d.Valid := by
  obtain ⟨_, _, _, _, _, _, hOptions, _⟩ := parse_eq_ok_iff.mp h
  exact ⟨periods_of_parse h, Options.accepted_of_ofConfig hBase hOptions⟩

/-- A description that may be drawn: it is raw, or a valid document. -/
def Description.Promised (description : Description K) : Prop :=
  ∀ document, description = .parsed document → document.Valid

theorem Description.valid_of_load {description : Description K} {options : Option (Options K)}
    {d : Document K} (hPromised : description.Promised) (hOptions : ∀ o ∈ options, o.check = .ok ())
    (h : (description.load options).outcome = .ok d) : d.Valid := by
  have hAccepted : ∀ o ∈ options, o.Accepted := fun o ho =>
    Options.check_eq_ok_iff.mp (hOptions o ho)
  cases description with
  | raw value =>
      refine Document.valid_of_parse ?_ h
      cases options with
      | none => exact Options.accepted_default
      | some o => exact hAccepted o rfl
  | parsed document =>
      have hValid := hPromised document rfl
      cases options with
      | none =>
          cases h
          exact hValid
      | some o =>
          cases h
          exact ⟨hValid.periods, hAccepted o rfl⟩

end Exact

section Promises

variable {K : Type} [Field K] [LinearOrder K]

theorem Document.Valid.promised {d : Document K} (h : d.Valid) :
    (Description.parsed d).Promised := by
  rintro _ ⟨⟩
  exact h

theorem Description.Promised.periods {description : Description K} (h : description.Promised) :
    ∀ document, description = .parsed document → ∀ s ∈ document.signals, 1 ≤ s.period :=
  fun document hSame => (h document hSame).periods

end Promises

end TimingDiagram
