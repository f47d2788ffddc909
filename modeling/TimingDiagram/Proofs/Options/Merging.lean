import TimingDiagram.Proofs.Options.Checks
import TimingDiagram.Proofs.Options.Settings
import TimingDiagram.Proofs.Value.Entries

/-! Merging settings into options. What comes out is told by the settings that are chosen, whatever their
order, and its checks can be computed where those of the options before could be. -/
namespace TimingDiagram
namespace Options

variable {o other base : Options Quantity}

/-- Options after the settings that are chosen for them: an option with a setting holds what its value
gives in the place of what was there before, and the others hold what they held. -/
structure Merges (base : Options Quantity) (chosen : Setting → Option Value) (o : Options Quantity) :
    Prop where
  given : ∀ name value, chosen name = some value →
    ∃ new, name.Takes (base.held name) value new ∧ o.held name = .ok new
  kept : ∀ name, chosen name = none → o.held name = base.held name
  measure : o.measure = base.measure

theorem merges_none_iff : base.Merges (fun _ => none) o ↔ o = base := by
  constructor
  · intro h
    exact eq_of_held (fun name => h.kept name rfl) h.measure
  · rintro rfl
    exact ⟨nofun, fun _ _ => rfl, rfl⟩

/-- What is merged again does not change. -/
theorem Merges.again {chosen : Setting → Option Value} (h : base.Merges chosen o) :
    o.Merges chosen o := by
  refine ⟨fun name value hChosen => ?_, fun _ _ => rfl, rfl⟩
  obtain ⟨new, hTakes, hHeld⟩ := h.given name value hChosen
  rw [hHeld]
  exact ⟨new, hTakes.again, rfl⟩

theorem Merges.unique {chosen : Setting → Option Value} (h : base.Merges chosen o)
    (hOther : base.Merges chosen other) : o = other := by
  refine eq_of_held (fun name => ?_) (h.measure.trans hOther.measure.symm)
  cases hChosen : chosen name with
  | none => rw [h.kept name hChosen, hOther.kept name hChosen]
  | some value =>
      obtain ⟨new, hTakes, hNew⟩ := h.given name value hChosen
      obtain ⟨again, hAgain, hSame⟩ := hOther.given name value hChosen
      rw [hNew, hSame, hTakes.unique hAgain]

/-- One more setting, for an option that no other one is for. -/
theorem merges_write_iff {chosen : Setting → Option Value} {name : Setting} {value : Value}
    (hNone : chosen name = none) :
    (∃ new, name.Takes (base.held name) value new ∧ (base.write name new).Merges chosen o) ↔
      base.Merges (fun another => if another = name then some value else chosen another) o := by
  constructor
  · rintro ⟨new, hTakes, h⟩
    have hHeld := held_write hTakes base
    refine ⟨fun another other hChosen => ?_, fun another hChosen => ?_, ?_⟩
    · by_cases hSame : another = name
      · subst hSame
        rw [if_pos rfl, Option.some.injEq] at hChosen
        exact ⟨new, hChosen ▸ hTakes, by rw [h.kept another hNone, hHeld, if_pos rfl]⟩
      · rw [if_neg hSame] at hChosen
        have hGiven := h.given another other hChosen
        rwa [hHeld, if_neg hSame] at hGiven
    · split_ifs at hChosen with hSame
      rw [h.kept another hChosen, hHeld, if_neg hSame]
    · rw [h.measure, measure_write]
  · intro h
    obtain ⟨new, hTakes, hNew⟩ := h.given name value (if_pos rfl)
    have hHeld := held_write hTakes base
    refine ⟨new, hTakes, fun another other hChosen => ?_, fun another hChosen => ?_, ?_⟩
    · have hSame : another ≠ name := fun hSame => by simp [hSame, hNone] at hChosen
      rw [hHeld, if_neg hSame]
      exact h.given another other ((if_neg hSame).trans hChosen)
    · rw [hHeld]
      split_ifs with hSame
      · rw [hSame, hNew]
      · exact h.kept another ((if_neg hSame).trans hChosen)
    · rw [h.measure, measure_write]

/-- The settings of a document are merged, whatever their order, and fail where one of them cannot. -/
theorem outcome_foldlM_applySetting [Memory] {settings : List (String × Value)}
    (hDistinct : Value.Distinct settings) :
    (settings.foldlM (fun (o : Options Quantity) entry => o.applySetting entry.1 entry.2) base :
        Logged (Options Quantity)).outcome = .ok o ↔
      base.Merges (fun name => Value.lookup name.key settings) o := by
  induction settings generalizing base with
  | nil =>
      rw [List.foldlM_nil, Logged.outcome_pure, Except.ok.injEq]
      exact eq_comm.trans merges_none_iff.symm
  | cons entry rest ih =>
      obtain ⟨key, value⟩ := entry
      obtain ⟨hFirst, hRest⟩ := List.nodup_cons.mp hDistinct
      rw [List.foldlM_cons, Logged.outcome_bind]
      simp only [Value.lookup_cons]
      cases hKey : Setting.ofKey? key with
      | none =>
          simp only [applySetting_unknown base value hKey, ok_bind, ih hRest,
            Setting.key_ne_of_unknown hKey, if_false]
      | some name =>
          obtain rfl := Setting.key_of_ofKey? hKey
          have hNone : Value.lookup name.key rest = none := Value.lookup_eq_none_iff.mpr hFirst
          simp only [Setting.key_injective.eq_iff]
          rw [← merges_write_iff hNone, bind_eq_ok_iff, applySetting_key]
          simp only [map_eq_ok_iff, converted_eq_ok_iff (base.holdsText_iff name), ih hRest]
          constructor
          · rintro ⟨_, ⟨new, hTakes, rfl⟩, h⟩
            exact ⟨new, hTakes, h⟩
          · rintro ⟨new, hTakes, h⟩
            exact ⟨_, ⟨new, hTakes, rfl⟩, h⟩

/-- Settings that may take the places they are for can be merged. -/
theorem exists_merges {settings : List (String × Value)} (hDistinct : Value.Distinct settings)
    (h : ∀ name value, Value.lookup (Setting.key name) settings = some value →
      ∃ new, name.Takes (base.held name) value new) :
    ∃ o, base.Merges (fun name => Value.lookup name.key settings) o := by
  induction settings generalizing base with
  | nil => exact ⟨base, merges_none_iff.mpr rfl⟩
  | cons entry rest ih =>
      obtain ⟨key, value⟩ := entry
      obtain ⟨hFirst, hRest⟩ := List.nodup_cons.mp hDistinct
      simp only [Value.lookup_cons] at h ⊢
      cases hKey : Setting.ofKey? key with
      | none =>
          simp only [Setting.key_ne_of_unknown hKey, if_false] at h ⊢
          exact ih hRest h
      | some name =>
          obtain rfl := Setting.key_of_ofKey? hKey
          have hNone : Value.lookup name.key rest = none := Value.lookup_eq_none_iff.mpr hFirst
          simp only [Setting.key_injective.eq_iff] at h ⊢
          obtain ⟨new, hTakes⟩ := h name value (if_pos rfl)
          have hOthers (another : Setting) (other : Value)
              (hOther : Value.lookup another.key rest = some other) :
              ∃ more, another.Takes ((base.write name new).held another) other more := by
            have hSame : another ≠ name := fun hSame => by simp [hSame, hNone] at hOther
            rw [held_write hTakes, if_neg hSame]
            exact h another other ((if_neg hSame).trans hOther)
          obtain ⟨o, ho⟩ := ih hRest hOthers
          exact ⟨o, (merges_write_iff hNone).mp ⟨new, hTakes, ho⟩⟩

/-- Settings fail for a defect, unless one of them is a number that is too large. -/
theorem malformed_of_foldlM [Memory] {settings : List (String × Value)} {e : Error}
    (hRange : ∀ name n, (Setting.key name, .number n) ∈ settings → Succeeds n.toFloat)
    (h : (settings.foldlM (fun (o : Options Quantity) entry => o.applySetting entry.1 entry.2) base :
      Logged (Options Quantity)).outcome = .error e) : ∃ d, e = defect d := by
  induction settings generalizing base with
  | nil => cases h
  | cons entry rest ih =>
      obtain ⟨key, value⟩ := entry
      rw [List.foldlM_cons, Logged.outcome_bind] at h
      rcases bind_eq_error_iff.mp h with hError | ⟨o, _, hRest⟩
      · cases hKey : Setting.ofKey? key with
        | none =>
            rw [applySetting_unknown base value hKey] at hError
            cases hError
        | some name =>
            obtain rfl := Setting.key_of_ofKey? hKey
            rw [applySetting_key] at hError
            exact malformed_of_converted (fun n hn => hRange name n (hn ▸ List.mem_cons_self))
              (map_eq_error_iff.mp hError)
      · exact ih (fun name n hMem => hRange name n (List.mem_cons_of_mem _ hMem)) hRest

section Range

variable {option : NumberOption} {chosen : Setting → Option Value}

theorem not_holdsText_of_number {a : Quantity} (h : Succeeds a.toNumber) :
    ¬ Setting.HoldsText a.outcome := by
  rintro ⟨s, hs⟩
  obtain ⟨n, hn⟩ := h
  rw [Quantity.toNumber, hs] at hn
  cases hn

/-- What can be doubled to a number is a number. -/
theorem not_holdsText_of_twice [Memory] {a : Quantity} (h : Succeeds (a * Scalar.whole 2).toNumber) :
    ¬ Setting.HoldsText a.outcome := by
  obtain ⟨n, hn⟩ := h
  obtain ⟨k, _, hk, _⟩ := Quantity.of_toNumber_mul hn
  exact not_holdsText_of_number ⟨k, hk⟩

/-- An option without a text is kept, or becomes a fraction. -/
theorem number_of_merges (h : base.Merges chosen o) (option : NumberOption)
    (hText : ¬ Setting.HoldsText (base.number option).outcome) :
    o.number option = base.number option ∨ ∃ x, o.number option = .known (.real x) := by
  cases hChosen : chosen (.number option) with
  | none => exact .inl (congrArg Quantity.mk (h.kept _ hChosen))
  | some value =>
      obtain ⟨new, hTakes, hNew⟩ := h.given _ value hChosen
      cases hTakes with
      | text _ hHeld => exact absurd hHeld hText
      | number _ _ hx => exact .inr ⟨_, congrArg Quantity.mk hNew⟩

theorem succeeds_toNumber_of_merges (h : base.Merges chosen o)
    (hNumber : Succeeds (base.number option).toNumber) : Succeeds (o.number option).toNumber := by
  rcases number_of_merges h option (not_holdsText_of_number hNumber) with hSame | ⟨x, hReal⟩
  · rwa [hSame]
  · rw [hReal]
    exact ⟨.real x, rfl⟩

theorem inRange_of_merges (h : base.Merges chosen o) (hNumber : Succeeds (base.number option).toNumber)
    (hRange : (base.number option).InRange) : (o.number option).InRange := by
  rcases number_of_merges h option (not_holdsText_of_number hNumber) with hSame | ⟨x, hReal⟩
  · rwa [hSame]
  · rw [hReal]
    exact Quantity.inRange_real x

/-- Merging keeps the checks computable where no number is too large for a fraction. -/
theorem measurable_of_merges [Memory] (h : base.Merges chosen o) (hBase : base.Measurable)
    (hRange : ∀ option, (base.number option).InRange) : o.Measurable := by
  have hWidth : Succeeds (o.number .cycleWidth).toNumber :=
    succeeds_toNumber_of_merges h hBase.cycleWidth
  have hScale : Succeeds (o.number .hscale).toNumber := succeeds_toNumber_of_merges h hBase.hscale
  have hShrink : Succeeds (o.number .gapShrink).toNumber :=
    succeeds_toNumber_of_merges h hBase.gapShrink
  have hHeight : Succeeds (o.number .waveHeight).toNumber :=
    succeeds_toNumber_of_merges h hBase.waveHeight
  refine ⟨hWidth, hScale, hShrink, hHeight, ?_, ?_⟩
  · rcases number_of_merges h .transitionOffset (not_holdsText_of_twice hBase.twice) with
      hSame | ⟨x, hReal⟩
    · change Succeeds (o.number .transitionOffset * Scalar.whole 2).toNumber
      rw [hSame]
      exact hBase.twice
    · change Succeeds (o.number .transitionOffset * Scalar.whole 2).toNumber
      rw [hReal]
      refine Quantity.succeeds_mul ⟨.real x, rfl⟩ ⟨.whole 2, rfl⟩ (Quantity.inRange_real x) ?_
      rintro _ ⟨⟩
      have hFinite : (Number.nearest 2).isInf = false := by decide
      exact ⟨Number.nearest 2, by simp [Number.toFloat, hFinite]⟩
  · have hLeft : (o.number .cycleWidth).InRange := inRange_of_merges h hBase.cycleWidth (hRange _)
    have hRight : (o.number .hscale).InRange := inRange_of_merges h hBase.hscale (hRange _)
    exact Quantity.succeeds_mul hWidth hScale hLeft hRight

end Range

end Options
end TimingDiagram
