import TimingDiagram.Proofs.Options.Merging

/-! The config block of a document. Its theme is merged after its own settings, so that the options are
told by what takes effect, and a block is refused for its theme, for the kind of a value that takes effect
or for the checks of the options. -/
namespace TimingDiagram
namespace Options

variable {o base : Options Quantity} {entries : List (String × Value)}

/-- The settings of the theme of a config block. -/
def themeOf (entries : List (String × Value)) : List (String × Value) :=
  match Value.lookup "theme" entries with
  | some (.mapping theme) => theme
  | _ => []

/-- Whether the theme of a config block is a mapping, or there is none. -/
def ThemeFits (entries : List (String × Value)) : Prop :=
  ∀ value, Value.lookup "theme" entries = some value → value = .null ∨ ∃ theme, value = .mapping theme

/-- The value that a config block gives an option: that of its theme, or else its own. -/
def effective (entries : List (String × Value)) (name : Setting) : Option Value :=
  (Value.lookup name.key (themeOf entries)).or (Value.lookup name.key entries)

/-- Whether no key of a config block is used twice, nor one of its theme. -/
def DistinctKeys (entries : List (String × Value)) : Prop :=
  Value.Distinct entries ∧ Value.Distinct (themeOf entries)

theorem settings_eq (h : ThemeFits entries) : settings entries =
    .ok (Value.update (Value.restrict (· != "theme") entries) (themeOf entries)) := by
  unfold settings themeOf
  cases hTheme : Value.lookup "theme" entries with
  | none => rfl
  | some value => rcases h value hTheme with rfl | ⟨theme, rfl⟩ <;> rfl

theorem settings_eq_error (h : ¬ ThemeFits entries) : settings entries = .error (defect .themeKind) := by
  simp only [ThemeFits, not_forall, not_or, not_exists] at h
  obtain ⟨value, hTheme, hNull, hMapping⟩ := h
  rw [settings, hTheme]
  cases value with
  | null => exact absurd rfl hNull
  | mapping theme => exact absurd rfl (hMapping theme)
  | _ => rfl

/-- What is looked up among all settings is what takes effect. -/
theorem lookup_settings (h : DistinctKeys entries) (name : Setting) :
    Value.lookup name.key (Value.update (Value.restrict (· != "theme") entries) (themeOf entries)) =
      effective entries name := by
  rw [Value.lookup_update h.2, Value.lookup_restrict, effective, if_pos]
  simpa using name.key_ne_theme

theorem distinct_settings (h : DistinctKeys entries) :
    Value.Distinct (Value.update (Value.restrict (· != "theme") entries) (themeOf entries)) :=
  (h.1.restrict _).update

section Blocks

variable {K : Type} [Mul K] [LT K] [LE K] [DecidableLT K] [DecidableLE K] [Scalar K]

/-- The settings of a config block are applied one after the other, and what comes of it is checked. -/
theorem ofConfig_mapping (base : Options K) (h : entries ≠ []) :
    ofConfig (.mapping entries) base = do
      let merged ← (settings entries : Except Error _)
      let o ← merged.foldlM (fun (o : Options K) entry => o.applySetting entry.1 entry.2) base
      (check o : Except Error Unit)
      return o :=
  if_neg (by simpa [Value.isBlank] using h)

theorem outcome_ofConfig (base : Options K) (h : entries ≠ []) :
    (ofConfig (.mapping entries) base).outcome = do
      let merged ← settings entries
      let o ← (merged.foldlM (fun (o : Options K) entry => o.applySetting entry.1 entry.2) base :
        Logged (Options K)).outcome
      check o
      return o := by
  rw [ofConfig_mapping base h]
  simp only [Logged.outcome_bind, Logged.outcome_liftM, Logged.outcome_pure]
  rfl

end Blocks

section Overriding

variable {key : String} (value : Value)

theorem lookup_theme_put (h : key ≠ "theme") :
    Value.lookup "theme" (Value.put entries key value) = Value.lookup "theme" entries := by
  rw [Value.lookup_put, if_neg h.symm]

theorem themeOf_put (h : key ≠ "theme") : themeOf (Value.put entries key value) = themeOf entries := by
  rw [themeOf, themeOf, lookup_theme_put value h]

/-- What a theme gives an option hides what the top level gives it. -/
theorem effective_put (h : key ≠ "theme") (hTheme : (Value.lookup key (themeOf entries)).isSome) :
    effective (Value.put entries key value) = effective entries := by
  funext name
  rw [effective, effective, themeOf_put value h, Value.lookup_put]
  split_ifs with hKey
  · obtain ⟨own, hOwn⟩ := Option.isSome_iff_exists.mp hTheme
    rw [hKey, hOwn]
    rfl
  · rfl

end Overriding

section Merged

variable [Memory]

/-- The options of a config block are the base with what takes effect merged into it, if they pass their
checks. -/
theorem ofConfig_eq_ok_iff (hKeys : DistinctKeys entries) (hBase : base.check = .ok ()) :
    (ofConfig (.mapping entries) base).outcome = .ok o ↔
      ThemeFits entries ∧ base.Merges (effective entries) o ∧ o.check = .ok () := by
  rcases eq_or_ne entries [] with rfl | hSome
  · have hNone : effective [] = fun _ => none := rfl
    rw [hNone, merges_none_iff]
    constructor
    · rintro ⟨⟩
      exact ⟨nofun, rfl, hBase⟩
    · rintro ⟨_, rfl, _⟩
      rfl
  · rw [outcome_ofConfig base hSome]
    by_cases hTheme : ThemeFits entries
    · simp only [settings_eq hTheme, ok_bind, bind_eq_ok_iff,
        outcome_foldlM_applySetting (distinct_settings hKeys), lookup_settings hKeys]
      constructor
      · rintro ⟨_, hMerges, _, hCheck, ⟨⟩⟩
        exact ⟨hTheme, hMerges, hCheck⟩
      · rintro ⟨_, hMerges, hCheck⟩
        exact ⟨o, hMerges, (), hCheck, rfl⟩
    · rw [settings_eq_error hTheme, error_bind]
      exact ⟨nofun, fun h => absurd h.1 hTheme⟩

/-- A config block whose numbers are not too large is only refused for a defect. -/
theorem malformed_of_ofConfig (hKeys : DistinctKeys entries) (hBase : base.check = .ok ())
    (hBaseRange : ∀ option, (base.number option).InRange)
    (hRange : ∀ name n, effective entries name = some (.number n) → Succeeds n.toFloat) {e : Error}
    (h : (ofConfig (.mapping entries) base).outcome = .error e) : ∃ d, e = defect d := by
  rcases eq_or_ne entries [] with rfl | hSome
  · cases h
  · rw [outcome_ofConfig base hSome] at h
    by_cases hTheme : ThemeFits entries
    · rw [settings_eq hTheme, ok_bind] at h
      rcases bind_eq_error_iff.mp h with hError | ⟨o, hRun, hError⟩
      · refine malformed_of_foldlM (fun name n hMem => hRange name n ?_) hError
        rw [← lookup_settings hKeys]
        exact Value.lookup_of_mem (distinct_settings hKeys) hMem
      · have hMerges := (outcome_foldlM_applySetting (distinct_settings hKeys)).mp hRun
        have hMeasurable := measurable_of_merges hMerges (measurable_of_check hBase) hBaseRange
        rcases bind_eq_error_iff.mp hError with hCheck | ⟨_, _, hDone⟩
        · exact malformed_of_check hMeasurable hCheck
        · cases hDone
    · rw [settings_eq_error hTheme] at h
      cases h
      exact ⟨_, rfl⟩

theorem ofConfig_put_eq_ok_iff {key : String} (value : Value) (hKeys : DistinctKeys entries) (hBase : base.check = .ok ())
    (h : key ≠ "theme") (hTheme : (Value.lookup key (themeOf entries)).isSome) :
    (ofConfig (.mapping (Value.put entries key value)) base).outcome = .ok o ↔
      (ofConfig (.mapping entries) base).outcome = .ok o := by
  have hPut : DistinctKeys (Value.put entries key value) := by
    refine ⟨hKeys.1.put, ?_⟩
    rw [themeOf_put value h]
    exact hKeys.2
  rw [ofConfig_eq_ok_iff hPut hBase, ofConfig_eq_ok_iff hKeys hBase, effective_put value h hTheme,
    ThemeFits, lookup_theme_put value h]
  rfl

/-- A config block whose numbers are not too large is merged when its theme is a mapping, what takes effect
is of the right kinds, and the merged options are in order. -/
theorem succeeds_ofConfig_iff (hKeys : DistinctKeys entries) (hBase : base.check = .ok ())
    (hBaseRange : ∀ option, (base.number option).InRange)
    (hRange : ∀ name n, effective entries name = some (.number n) → Succeeds n.toFloat) :
    Succeeds (ofConfig (.mapping entries) base).outcome ↔ ThemeFits entries ∧
      (∀ name value, effective entries name = some value → name.Fits (base.held name) value) ∧
      ∀ o, base.Merges (effective entries) o → ∀ r : Requirement, r.Comparable o → r.Holds o := by
  have hPasses {o : Options Quantity} (hMerges : base.Merges (effective entries) o) :
      o.check = .ok () ↔ ∀ r : Requirement, r.Comparable o → r.Holds o :=
    check_eq_ok_iff_holds (measurable_of_merges hMerges (measurable_of_check hBase) hBaseRange)
  have hKinds (name : Setting) (value : Value) (hValue : effective entries name = some value) :
      (∃ new, name.Takes (base.held name) value new) ↔ name.Fits (base.held name) value :=
    Setting.exists_takes_iff_fits fun n hn => hRange name n (hn ▸ hValue)
  constructor
  · rintro ⟨o, ho⟩
    obtain ⟨hTheme, hMerges, hCheck⟩ := (ofConfig_eq_ok_iff hKeys hBase).mp ho
    refine ⟨hTheme, fun name value hValue => ?_, fun other hOther => ?_⟩
    · obtain ⟨new, hTakes, _⟩ := hMerges.given name value hValue
      exact (hKinds name value hValue).mp ⟨new, hTakes⟩
    · rw [← hMerges.unique hOther]
      exact (hPasses hMerges).mp hCheck
  · rintro ⟨hTheme, hFits, hAll⟩
    obtain ⟨o, hMerges⟩ := exists_merges (distinct_settings hKeys) fun name value hValue => by
      rw [lookup_settings hKeys] at hValue
      exact (hKinds name value hValue).mpr (hFits name value hValue)
    simp only [lookup_settings hKeys] at hMerges
    exact ⟨o, (ofConfig_eq_ok_iff hKeys hBase).mpr
      ⟨hTheme, hMerges, (hPasses hMerges).mpr (hAll o hMerges)⟩⟩

/-- Merging a config block into options that have passed their checks. The last writer wins: each option
holds what the theme gives it, or else the top level, or else what it held; the text measure stays. The
options have what a figure needs of them, as far as the sizes that are compared are numbers, and merging
the block again changes nothing. Where no number is too large for a fraction, a block is refused exactly
when its theme is no mapping, when something that takes effect is of the wrong kind, or when the merged
options fail a check, and always as malformed. What a theme overrides does not matter. -/
theorem ofConfig_merges (hKeys : DistinctKeys entries) (hBase : base.check = .ok ()) :
    (∀ o, (ofConfig (.mapping entries) base).outcome = .ok o →
      base.Merges (effective entries) o ∧ (∀ r : Requirement, r.Comparable o → r.Holds o) ∧
        (ofConfig (.mapping entries) o).outcome = .ok o) ∧
    ((∀ option, (base.number option).InRange) →
      (∀ name n, effective entries name = some (.number n) → Succeeds n.toFloat) →
      (Succeeds (ofConfig (.mapping entries) base).outcome ↔ ThemeFits entries ∧
        (∀ name value, effective entries name = some value → name.Fits (base.held name) value) ∧
        ∀ o, base.Merges (effective entries) o → ∀ r : Requirement, r.Comparable o → r.Holds o) ∧
      ∀ e, (ofConfig (.mapping entries) base).outcome = .error e → ∃ d, e = .malformed d {}) ∧
    ∀ key value, key ≠ "theme" → (Value.lookup key (themeOf entries)).isSome → ∀ o,
      (ofConfig (.mapping (Value.put entries key value)) base).outcome = .ok o ↔
        (ofConfig (.mapping entries) base).outcome = .ok o := by
  refine ⟨fun o h => ?_, fun hBaseRange hRange => ⟨?_, fun e h => ?_⟩, fun key value hKey hTheme o => ?_⟩
  · obtain ⟨hTheme, hMerges, hCheck⟩ := (ofConfig_eq_ok_iff hKeys hBase).mp h
    exact ⟨hMerges, (check_eq_ok_iff_holds (measurable_of_check hCheck)).mp hCheck,
      (ofConfig_eq_ok_iff hKeys hCheck).mpr ⟨hTheme, hMerges.again, hCheck⟩⟩
  · exact succeeds_ofConfig_iff hKeys hBase hBaseRange hRange
  · exact malformed_of_ofConfig hKeys hBase hBaseRange hRange h
  · exact ofConfig_put_eq_ok_iff value hKeys hBase hKey hTheme

end Merged

/-- A horizontal scale that is no number is neither positive nor refused. -/
theorem ofConfig_keeps_nan : (default : Options Quantity).check = .ok () ∧ ∃ o : Options Quantity,
    (ofConfig (.mapping [("hscale", .number (.real (0.0 / 0.0)))]) default).outcome = .ok o ∧
      ¬ Scalar.whole 0 < o.hscale :=
  ⟨rfl, { (default : Options Quantity) with hscale := .known (.real (0.0 / 0.0)) }, rfl, by decide⟩

/-- A config block with a truth value for a number that its theme overrides. -/
def themed : List (String × Value) := [
  ("hscale", .bool true),
  ("theme", .mapping [("hscale", .number (.whole 3)), ("stroke", .text "#333333")])]

theorem inRange_default (option : NumberOption) :
    ((default : Options Quantity).number option).InRange := by
  cases option <;> exact Quantity.inRange_real _

theorem inRange_themed (name : Setting) (n : Number) (h : effective themed name = some (.number n)) :
    Succeeds n.toFloat := by
  have hThree : (Number.whole 3).toFloat = .ok (Number.nearest 3) := by rfl
  have hTheme : themeOf themed = [("hscale", .number (.whole 3)), ("stroke", .text "#333333")] := rfl
  rw [effective, hTheme, themed] at h
  simp only [Value.lookup_cons, Value.lookup_nil] at h
  split_ifs at h <;> cases h
  exact ⟨_, hThree⟩

/-- The theme decides, a truth value that it overrides does no harm, and nothing changes when the block
is merged again. -/
theorem ofConfig_merges_themed : DistinctKeys themed ∧ (default : Options Quantity).check = .ok () ∧
    ∃ o, (ofConfig (.mapping themed) default).outcome = .ok o ∧
      o.held (.number .hscale) = .ok (.number (.real (Number.nearest 3))) ∧
      o.held (.text .stroke) = .ok (.text "#333333") ∧ Requirement.hscale.Holds o ∧ ThemeFits themed ∧
      (ofConfig (.mapping themed) o).outcome = .ok o ∧
      (ofConfig (.mapping (Value.put themed "stroke" .null)) default).outcome = .ok o := by
  have hKeys : DistinctKeys themed := ⟨by decide, by decide⟩
  have hBase : (default : Options Quantity).check = .ok () := by rfl
  have hOutcome : (ofConfig (.mapping themed) (default : Options Quantity)).outcome =
      .ok { default with hscale := .known (.real (Number.nearest 3)), stroke := .text "#333333" } := by
    rfl
  obtain ⟨hMerged, hRefused, hOverridden⟩ := ofConfig_merges hKeys hBase
  obtain ⟨_, hHolds, hAgain⟩ := hMerged _ hOutcome
  have hComparable : Requirement.hscale.Comparable
      { (default : Options Quantity) with
        hscale := .known (.real (Number.nearest 3)), stroke := .text "#333333" } := by
    rw [Requirement.Comparable, Requirement.compared, List.forall_mem_singleton,
      Quantity.isNaN_iff rfl]
    exact Bool.false_ne_true
  obtain ⟨hTheme, _, _⟩ := (hRefused inRange_default inRange_themed).1.mp ⟨_, hOutcome⟩
  exact ⟨hKeys, hBase, _, hOutcome, rfl, rfl, hHolds _ hComparable, hTheme, hAgain,
    (hOverridden "stroke" .null (by decide) rfl _).mpr hOutcome⟩

end Options
end TimingDiagram
