import TimingDiagram.Options
import TimingDiagram.Proofs.Outcome

/-! The settings of options. A setting takes the place of what its option holds if it is of the right
kind, and leaves the other options as they are; a key that is not that of an option does nothing. -/
namespace TimingDiagram

/-- An option that a document can set. -/
inductive Setting where
  | number (option : NumberOption)
  | text (option : TextOption)
  | backgrounds
  deriving DecidableEq

namespace Setting

def key : Setting → String
  | number option => option.key
  | text option => option.key
  | backgrounds => "backgrounds"

def ofKey? (s : String) : Option Setting :=
  ((NumberOption.ofKey? s).map number).or (((TextOption.ofKey? s).map text).or
    (if s = "backgrounds" then some backgrounds else none))

theorem ofKey?_key (name : Setting) : ofKey? name.key = some name := by
  cases name with
  | number option => cases option <;> decide
  | text option => cases option <;> decide
  | backgrounds => decide

theorem key_of_ofKey? {s : String} {name : Setting} (h : ofKey? s = some name) : name.key = s := by
  simp only [ofKey?, Option.or_eq_some_iff, Option.map_eq_some_iff, Option.map_eq_none_iff] at h
  rcases h with ⟨option, hFound, rfl⟩ | ⟨_, ⟨option, hFound, rfl⟩ | ⟨_, hOther⟩⟩
  · exact eq_of_beq (List.find?_some (p := fun o => NumberOption.key o == s) hFound)
  · exact eq_of_beq (List.find?_some (p := fun o => TextOption.key o == s) hFound)
  · split_ifs at hOther with hKey
    cases hOther
    exact hKey.symm

theorem key_injective : Function.Injective key := by
  intro a b h
  have hSame := ofKey?_key a
  rw [h, ofKey?_key] at hSame
  exact (Option.some.inj hSame).symm

theorem key_ne_of_unknown {s : String} (h : ofKey? s = none) (name : Setting) : name.key ≠ s := by
  rintro rfl
  rw [ofKey?_key] at h
  cases h

theorem key_ne_theme (name : Setting) : name.key ≠ "theme" := key_ne_of_unknown (by decide) name

/-- Whether an option holds a text. -/
def HoldsText (held : Except Fault Value) : Prop := ∃ s, held = .ok (.text s)

/-- What takes the place of what an option holds. A list of colours takes that of the colours, a text
that of a text, and a number that of anything else, as a fraction. -/
inductive Takes : Setting → Except Fault Value → Value → Value → Prop
  | colours {held : Except Fault Value} {items : List Value} (h : ∀ v ∈ items, v.isText) :
      Takes .backgrounds held (.list items) (.list items)
  | text {name : Setting} {held : Except Fault Value} {s : String} (hName : name ≠ .backgrounds)
      (hHeld : HoldsText held) : Takes name held (.text s) (.text s)
  | number {name : Setting} {held : Except Fault Value} {n : Number} {x : Float}
      (hName : name ≠ .backgrounds) (hHeld : ¬ HoldsText held) (hNumber : n.toFloat = .ok x) :
      Takes name held (.number n) (.number (.real x))

/-- What has been taken would be taken again. -/
theorem Takes.again {name : Setting} {held : Except Fault Value} {value new : Value}
    (h : Takes name held value new) : Takes name (.ok new) value new := by
  cases h with
  | colours h => exact .colours h
  | text hName _ => exact .text hName ⟨_, rfl⟩
  | number hName _ hNumber => exact .number hName nofun hNumber

theorem Takes.unique {name : Setting} {held : Except Fault Value} {value new other : Value}
    (h : Takes name held value new) (hOther : Takes name held value other) : new = other := by
  cases h with
  | colours =>
      cases hOther
      rfl
  | text =>
      cases hOther
      rfl
  | number _ _ hNumber =>
      cases hOther with
      | number _ _ hAgain => rw [Except.ok.inj (hNumber.symm.trans hAgain)]

/-- Whether a value is of the kind that may take the place of what an option holds. A truth value may
not take any. -/
def Fits (name : Setting) (held : Except Fault Value) : Value → Prop
  | .list items => name = .backgrounds ∧ ∀ v ∈ items, v.isText
  | .text _ => name ≠ .backgrounds ∧ HoldsText held
  | .number _ => name ≠ .backgrounds ∧ ¬ HoldsText held
  | _ => False

/-- A value of the right kind is taken, unless it is a number that is too large. -/
theorem exists_takes_iff_fits {name : Setting} {held : Except Fault Value} {value : Value}
    (hRange : ∀ n, value = .number n → Succeeds n.toFloat) :
    (∃ new, name.Takes held value new) ↔ name.Fits held value := by
  constructor
  · rintro ⟨new, ⟨hTexts⟩ | ⟨hName, hHeld⟩ | ⟨hName, hHeld⟩⟩
    · exact ⟨rfl, hTexts⟩
    · exact ⟨hName, hHeld⟩
    · exact ⟨hName, hHeld⟩
  · intro h
    cases value with
    | list items =>
        obtain ⟨rfl, hTexts⟩ := h
        exact ⟨_, .colours hTexts⟩
    | text s => exact ⟨_, .text h.1 h.2⟩
    | number n =>
        obtain ⟨x, hx⟩ := hRange n rfl
        exact ⟨_, .number h.1 h.2 hx⟩
    | _ => exact h.elim

end Setting

namespace Options

variable {o other base : Options Quantity}

/-- What an option holds. -/
def held (o : Options Quantity) : Setting → Except Fault Value
  | .number option => (o.number option).outcome
  | .text option => .ok (o.text option)
  | .backgrounds => .ok (.list o.backgrounds)

/-- The options with another value in one of them. -/
def write (o : Options Quantity) (name : Setting) (new : Value) : Options Quantity :=
  match name, new with
  | .number option, new => o.withNumber option (.ofValue new)
  | .text option, new => o.withText option new
  | .backgrounds, .list items => { o with backgrounds := items }
  | .backgrounds, _ => o

theorem withNumber_keeps (o : Options Quantity) (a : NumberOption) (x : Quantity) :
    (∀ b, (o.withNumber a x).text b = o.text b) ∧
      (o.withNumber a x).backgrounds = o.backgrounds ∧ (o.withNumber a x).measure = o.measure := by
  cases a <;> exact ⟨fun _ => rfl, rfl, rfl⟩

theorem withText_keeps (o : Options Quantity) (a : TextOption) (s : Value) :
    (∀ b, (o.withText a s).number b = o.number b) ∧
      (o.withText a s).backgrounds = o.backgrounds ∧ (o.withText a s).measure = o.measure := by
  cases a <;> exact ⟨fun _ => rfl, rfl, rfl⟩

/-- The option that is written holds the new value, and the others what they held. -/
theorem held_write {name : Setting} {before : Except Fault Value} {value new : Value}
    (h : name.Takes before value new) (o : Options Quantity) (another : Setting) :
    (o.write name new).held another = if another = name then .ok new else o.held another := by
  cases name with
  | number option =>
      obtain ⟨hText, hColours, _⟩ := o.withNumber_keeps option (.ofValue new)
      cases another with
      | number b =>
          simp only [held, write, number_withNumber, Setting.number.injEq]
          split_ifs <;> rfl
      | text b => simp [held, write, hText]
      | backgrounds => simp [held, write, hColours]
  | text option =>
      obtain ⟨hNumber, hColours, _⟩ := o.withText_keeps option new
      cases another with
      | number b => simp [held, write, hNumber]
      | text b =>
          simp only [held, write, text_withText, Setting.text.injEq]
          split_ifs <;> rfl
      | backgrounds => simp [held, write, hColours]
  | backgrounds =>
      cases h with
      | colours => cases another <;> rfl
      | text hName => exact absurd rfl hName
      | number hName => exact absurd rfl hName

theorem measure_write (o : Options Quantity) (name : Setting) (new : Value) :
    (o.write name new).measure = o.measure := by
  unfold write
  split
  · exact (withNumber_keeps o _ _).2.2
  · exact (withText_keeps o _ _).2.2
  · rfl
  · rfl

/-- Options are told by what they hold and how they measure texts. -/
theorem eq_of_held (h : ∀ name, o.held name = other.held name) (hMeasure : o.measure = other.measure) :
    o = other := by
  have hNumber (option : NumberOption) : o.number option = other.number option :=
    congrArg Quantity.mk (h (.number option))
  have hText (option : TextOption) : o.text option = other.text option :=
    Except.ok.inj (h (.text option))
  have hColours : o.backgrounds = other.backgrounds :=
    Value.list.inj (Except.ok.inj (h .backgrounds))
  cases o
  cases other
  simp only [mk.injEq]
  exact ⟨hNumber .cycleWidth, hNumber .hscale, hNumber .waveHeight, hNumber .transitionOffset,
    hNumber .gapShrink, hNumber .gapMinWidth, hNumber .paddingTop, hNumber .paddingBottom,
    hNumber .paddingLeft, hNumber .paddingRight, hNumber .schemaTop, hNumber .schemaBottom,
    hNumber .nameSpacing, hNumber .lineSpacing, hNumber .groupIndent, hNumber .groupMargin,
    hNumber .fontSize, hNumber .charWidth, hNumber .strokeWidth, hText .fontFamily, hText .textColor,
    hText .stroke, hText .edgeColor, hText .hatchColor, hText .errorColor, hColours, hMeasure⟩

/-- Whether an option holds a text. -/
def holdsText [Memory] (o : Options Quantity) : Setting → Bool
  | .number option => Scalar.isText (o.number option)
  | .text option => (o.text option).isText
  | .backgrounds => false

theorem holdsText_iff [Memory] (o : Options Quantity) (name : Setting) :
    o.holdsText name = true ↔ Setting.HoldsText (o.held name) := by
  have hValue (v : Value) : v.isText = true ↔ Setting.HoldsText (.ok v) := by
    cases v <;> simp [Setting.HoldsText, Value.isText]
  cases name with
  | number option =>
      change Scalar.isText (o.number option) = true ↔ Setting.HoldsText (o.number option).outcome
      rcases o.number option with ⟨e | v⟩
      · exact iff_of_false Bool.false_ne_true (by simp [Setting.HoldsText])
      · exact hValue v
  | text option => exact hValue _
  | backgrounds => simp [holdsText, held, Setting.HoldsText]

/-- The value that a setting gives its option. -/
def converted (key : String) (name : Setting) (text : Bool) (value : Value) : Except Error Value :=
  match name with
  | .backgrounds => (colourSetting key value).map .list
  | _ => if text then (textSetting key value).map .text else (numberSetting key value).map .number

theorem textSetting_eq_ok_iff {key : String} {value : Value} {s : String} :
    textSetting key value = .ok s ↔ value = .text s := by
  cases value <;> simp [textSetting]

theorem numberSetting_eq_ok_iff {key : String} {value : Value} {k : Number} :
    numberSetting key value = .ok k ↔ ∃ n x, value = .number n ∧ n.toFloat = .ok x ∧ .real x = k := by
  cases value with
  | number n =>
      simp only [numberSetting, bind_eq_ok_iff, liftM_eq_ok_iff]
      constructor
      · rintro ⟨x, hx, ⟨⟩⟩
        exact ⟨n, x, rfl, hx, rfl⟩
      · rintro ⟨_, x, ⟨⟩, hx, rfl⟩
        exact ⟨x, hx, rfl⟩
  | _ => simp [numberSetting]

theorem colourSetting_eq_ok_iff {key : String} {value : Value} {colours : List Value} :
    colourSetting key value = .ok colours ↔ value = .list colours ∧ ∀ v ∈ colours, v.isText := by
  cases value with
  | list items =>
      rw [colourSetting, Value.list.injEq, ← List.all_eq_true]
      split_ifs with hAll
      · constructor
        · rintro ⟨⟩
          exact ⟨rfl, hAll⟩
        · rintro ⟨rfl, _⟩
          rfl
      · constructor
        · exact nofun
        · rintro ⟨rfl, hTexts⟩
          exact absurd hTexts hAll
  | _ => simp [colourSetting]

/-- A setting gives its option what may take the place of what is there. -/
theorem converted_eq_ok_iff {key : String} {name : Setting} {text : Bool}
    {before : Except Fault Value} {value new : Value} (hText : text = true ↔ Setting.HoldsText before) :
    converted key name text value = .ok new ↔ name.Takes before value new := by
  have hPlain (hName : name ≠ .backgrounds) :
      (if text then (textSetting key value).map .text else (numberSetting key value).map .number) =
        .ok new ↔ name.Takes before value new := by
    split_ifs with hHolds
    · simp only [map_eq_ok_iff, textSetting_eq_ok_iff]
      constructor
      · rintro ⟨s, rfl, rfl⟩
        exact .text hName (hText.mp hHolds)
      · rintro (_ | @⟨_, _, s⟩ | ⟨_, hOther⟩)
        · exact absurd rfl hName
        · exact ⟨s, rfl, rfl⟩
        · exact absurd (hText.mp hHolds) hOther
    · simp only [map_eq_ok_iff, numberSetting_eq_ok_iff]
      constructor
      · rintro ⟨_, ⟨n, x, rfl, hx, rfl⟩, rfl⟩
        exact .number hName (mt hText.mpr hHolds) hx
      · rintro (_ | ⟨_, hSome⟩ | @⟨_, _, n, x, _, _, hx⟩)
        · exact absurd rfl hName
        · exact absurd (hText.mpr hSome) hHolds
        · exact ⟨_, ⟨n, x, rfl, hx, rfl⟩, rfl⟩
  cases name with
  | number option => exact hPlain nofun
  | text option => exact hPlain nofun
  | backgrounds =>
      simp only [converted, map_eq_ok_iff, colourSetting_eq_ok_iff]
      constructor
      · rintro ⟨items, ⟨rfl, hTexts⟩, rfl⟩
        exact .colours hTexts
      · rintro (@⟨_, items, hTexts⟩ | ⟨hName⟩ | ⟨hName⟩)
        · exact ⟨items, ⟨rfl, hTexts⟩, rfl⟩
        · exact absurd rfl hName
        · exact absurd rfl hName

/-- A value that cannot take the place it is for is a defect, unless it is a number that is too large. -/
theorem malformed_of_converted {key : String} {name : Setting} {text : Bool} {value : Value} {e : Error}
    (hRange : ∀ n, value = .number n → Succeeds n.toFloat)
    (h : converted key name text value = .error e) : ∃ d, e = defect d := by
  have hText (hError : textSetting key value = .error e) : ∃ d, e = defect d := by
    cases value <;> cases hError <;> exact ⟨_, rfl⟩
  have hNumber (hError : numberSetting key value = .error e) : ∃ d, e = defect d := by
    cases value with
    | number n =>
        obtain ⟨x, hx⟩ := hRange n rfl
        rw [numberSetting, hx] at hError
        cases hError
    | _ => cases hError; exact ⟨_, rfl⟩
  have hColours (hError : colourSetting key value = .error e) : ∃ d, e = defect d := by
    cases value with
    | list items =>
        rw [colourSetting] at hError
        split_ifs at hError
        cases hError
        exact ⟨_, rfl⟩
    | _ => cases hError; exact ⟨_, rfl⟩
  have hPlain (hError : (if text then (textSetting key value).map Value.text
      else (numberSetting key value).map .number) = .error e) : ∃ d, e = defect d := by
    split_ifs at hError
    · exact hText (map_eq_error_iff.mp hError)
    · exact hNumber (map_eq_error_iff.mp hError)
  cases name with
  | number option => exact hPlain h
  | text option => exact hPlain h
  | backgrounds => exact hColours (map_eq_error_iff.mp h)

/-- A setting writes its value into its option, unless the option cannot hold it. -/
theorem applySetting_key [Memory] (o : Options Quantity) (name : Setting) (value : Value) :
    (o.applySetting name.key value).outcome =
      (converted name.key name (o.holdsText name) value).map (o.write name) := by
  cases name with
  | number option =>
      rw [applySetting, Setting.key, NumberOption.ofKey?_key, holdsText, converted]
      · dsimp only
        cases Scalar.isText (o.number option) with
        | true => cases textSetting option.key value <;> rfl
        | false => cases numberSetting option.key value <;> rfl
      · exact nofun
  | text option =>
      have hNone : NumberOption.ofKey? option.key = none := by cases option <;> decide
      rw [applySetting, Setting.key, TextOption.ofKey?_key, hNone, holdsText, converted]
      · dsimp only
        cases (o.text option).isText with
        | true => cases textSetting option.key value <;> rfl
        | false => cases numberSetting option.key value <;> rfl
      · exact nofun
  | backgrounds =>
      have hNone : NumberOption.ofKey? "backgrounds" = none ∧ TextOption.ofKey? "backgrounds" = none := by
        decide
      rw [applySetting, Setting.key, hNone.1, hNone.2, converted]
      dsimp only
      rw [if_pos rfl]
      cases colourSetting "backgrounds" value <;> rfl

/-- A key that is not that of an option changes nothing. -/
theorem applySetting_unknown {K : Type} [Scalar K] (o : Options K) {key : String} (value : Value)
    (h : Setting.ofKey? key = none) : (o.applySetting key value).outcome = .ok o := by
  simp only [Setting.ofKey?, Option.or_eq_none_iff, Option.map_eq_none_iff, ite_eq_right_iff,
    reduceCtorEq, imp_false] at h
  obtain ⟨hNumber, hText, hOther⟩ := h
  rw [applySetting, hNumber, hText]
  dsimp only
  rw [if_neg hOther]
  rfl

end Options
end TimingDiagram
