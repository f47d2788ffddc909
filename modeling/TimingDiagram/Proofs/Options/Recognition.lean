import TimingDiagram.Proofs.Options.Config

/-! Config blocks with unknown keys. What a block merges into some options is what is left of it when
only the keys of options stay, in the block and in its theme. -/
namespace TimingDiagram

/-- Whether a key is that of an option. -/
def Setting.isKey (s : String) : Bool := (Setting.ofKey? s).isSome

namespace Options

/-- A config block with the keys of options only, and those in its theme. -/
def knownEntries (entries : List (String × Value)) : List (String × Value) :=
  Value.revise (fun key value => if key = "theme" then value.withKeys Setting.isKey else value)
    (Value.restrict (fun key => key = "theme" || Setting.isKey key) entries)

def knownConfig : Value → Value
  | .mapping entries => .mapping (knownEntries entries)
  | value => value

theorem restrict_knownEntries (entries : List (String × Value)) :
    Value.restrict (· != "theme") (knownEntries entries) =
      Value.restrict Setting.isKey (Value.restrict (· != "theme") entries) := by
  have hTheme : Setting.isKey "theme" = false := by decide
  rw [knownEntries, Value.restrict_revise, Value.revise_eq_self]
  · simp only [Value.restrict, List.filter_filter]
    congr 1
    funext entry
    by_cases hKey : entry.1 = "theme" <;> simp [hKey, hTheme, Bool.and_comm]
  · intro entry hMem
    exact if_neg (by simpa using (List.mem_filter.mp hMem).2)

theorem lookup_theme_knownEntries (entries : List (String × Value)) :
    Value.lookup "theme" (knownEntries entries) =
      (Value.lookup "theme" entries).map (Value.withKeys Setting.isKey) := by
  rw [knownEntries, Value.lookup_revise, Value.lookup_restrict]
  rfl

/-- The settings of what is left of a block are what is left of its settings. -/
theorem settings_knownEntries (entries : List (String × Value)) :
    settings (knownEntries entries) = (settings entries).map (Value.restrict Setting.isKey) := by
  have hPlain := restrict_knownEntries entries
  rw [Value.restrict, Value.restrict] at hPlain
  rw [settings, settings, hPlain, lookup_theme_knownEntries]
  cases Value.lookup "theme" entries with
  | none => rfl
  | some value =>
      cases value with
      | mapping theme => exact congrArg Except.ok (Value.restrict_update _ _ _).symm
      | _ => rfl

variable {K : Type} [Scalar K] {o base : Options K}

/-- An option is set without a word. -/
theorem records_applySetting (o : Options K) {key : String} (value : Value)
    (h : Setting.isKey key = true) : (o.applySetting key value).records = [] := by
  unfold applySetting
  split
  · split_ifs <;> exact Logged.records_map _ _
  · split_ifs <;> exact Logged.records_map _ _
  · rename_i hNumber hText
    rw [Setting.isKey, Setting.ofKey?, hNumber, hText] at h
    split_ifs with hKey
    · exact Logged.records_map _ _
    · rw [if_neg hKey] at h
      cases h

/-- Settings are merged as they are without the unknown ones, but for what is told of these. -/
theorem foldlM_applySetting_known {settings : List (String × Value)}
    (h : (settings.foldlM (fun (o : Options K) entry => o.applySetting entry.1 entry.2) base :
      Logged (Options K)).outcome = .ok o) :
    (Value.restrict Setting.isKey settings).foldlM
      (fun (o : Options K) entry => o.applySetting entry.1 entry.2) base = pure o := by
  induction settings generalizing base with
  | nil =>
      cases h
      rfl
  | cons entry rest ih =>
      obtain ⟨key, value⟩ := entry
      rw [List.foldlM_cons, Logged.outcome_bind] at h
      obtain ⟨next, hFirst, hRest⟩ := bind_eq_ok_iff.mp h
      rw [Value.restrict_cons]
      split_ifs with hKey
      · rw [List.foldlM_cons, Logged.eq_pure (records_applySetting base value hKey) hFirst, pure_bind,
          ih hRest]
      · rw [Setting.isKey, Option.not_isSome_iff_eq_none] at hKey
        rw [applySetting_unknown base value hKey] at hFirst
        cases hFirst
        exact ih hRest

variable [Mul K] [LT K] [LE K] [DecidableLT K] [DecidableLE K]

/-- A config block that is accepted is merged without a word when the unknown keys are left out. A block
of such keys alone is as good as none. -/
theorem ofConfig_known {config : Value} (h : (ofConfig config base).outcome = .ok o) :
    ofConfig (knownConfig config) base = pure o := by
  cases config with
  | mapping entries =>
      rcases eq_or_ne entries [] with rfl | hSome
      · cases h
        rfl
      · rw [outcome_ofConfig base hSome] at h
        obtain ⟨merged, hMerged, h⟩ := bind_eq_ok_iff.mp h
        obtain ⟨next, hRun, h⟩ := bind_eq_ok_iff.mp h
        obtain ⟨⟨⟩, hCheck, h⟩ := bind_eq_ok_iff.mp h
        cases h
        have hRun := foldlM_applySetting_known hRun
        have hKnown := settings_knownEntries entries
        rw [hMerged] at hKnown
        rw [knownConfig]
        rcases eq_or_ne (knownEntries entries) [] with hNone | hSome
        · rw [hNone] at hKnown ⊢
          rw [← Except.ok.inj hKnown] at hRun
          exact hRun
        · rw [ofConfig_mapping base hSome, hKnown]
          change (Value.restrict Setting.isKey merged).foldlM _ base >>= _ = _
          rw [hRun, pure_bind]
          rw [hCheck]
          rfl
  | _ =>
      unfold ofConfig at h
      split_ifs at h with hBlank
      · cases h
        exact if_pos hBlank
      · cases h

end Options
end TimingDiagram
