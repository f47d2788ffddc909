import TimingDiagram.Figure.Emit
import TimingDiagram.Proofs.Layout.Placement

/-! Drawing that does not fail. Where a layout and the options can be computed with, it needs nothing but a
colour for every box with a label. -/
namespace TimingDiagram

open FirmScalar

/-- The options have a colour for a segment, if it needs one. -/
def Options.Fills {K : Type} (o : Options K) (seg : Segment) : Prop :=
  seg.kind = .data → Succeeds (o.background seg.color)

/-- Enough colours are enough for the boxes from two to nine. -/
theorem Options.succeeds_background {K : Type} {o : Options K} (hColours : 8 ≤ o.backgrounds.length)
    {color : Int} (hLow : 2 ≤ color) (hHigh : color ≤ 9) : Succeeds (o.background color) := by
  have hIndex : (color - 2).toNat < o.backgrounds.length := by omega
  simp only [background]
  rw [if_neg (by omega), if_neg (by omega), List.getElem?_eq_getElem hIndex]
  exact succeeds_ok _

theorem Styles.options_of_ofOptions {K : Type} [Scalar K] {o : Options K} {styles : Styles K}
    (h : ofOptions o = .ok styles) : styles.options = o := by
  obtain ⟨_, _, h⟩ := bind_eq_ok_iff.mp h
  cases h
  rfl

variable {K : Type} [Add K] [Sub K] [Mul K] [Div K] [Max K] [Min K] [Scalar K] [FirmScalar K]

namespace Styles

theorem succeeds_ofOptions {o : Options K} (ho : o.Steady) : Succeeds (ofOptions o) :=
  (compact_firm 2 (ho.number .strokeWidth)).bind fun _ _ => succeeds_pure _

variable {styles : Styles K}

theorem succeeds_text (hs : styles.options.Steady) (anchor : String) (color : Value) (more : Style) :
    Succeeds (styles.text anchor color more) :=
  (compact_firm 2 (hs.number .fontSize)).bind fun _ _ => succeeds_pure _

theorem succeeds_centred (hs : styles.options.Steady) (more : Style) :
    Succeeds (styles.centred more) :=
  succeeds_text hs _ _ _

end Styles

namespace Lane

variable {l : Lane K}

theorem succeeds_boxLabel (hs : l.styles.options.Steady) (seg : Segment) (start stop : BodyEnd K) :
    Succeeds (l.boxLabel seg start stop) := by
  rw [boxLabel]
  split
  · exact succeeds_ok []
  · exact (Styles.succeeds_centred hs []).bind fun _ _ => succeeds_pure _

theorem succeeds_body (hs : l.styles.options.Steady) {p : PlacedSegment K}
    (h : l.styles.options.Fills p.segment) (start stop : BodyEnd K) :
    Succeeds (l.body p start stop) := by
  simp only [body]
  split
  · exact succeeds_ok _
  · exact succeeds_ok _
  · rename_i hKind
    apply (h hKind).bind
    intro fill _
    exact (succeeds_boxLabel hs p.segment start stop).bind fun _ _ => succeeds_pure _
  · exact succeeds_ok _

variable [BEq K]

omit [Div K] [Max K] [Min K] [FirmScalar K] in
/-- Bodies meet at the joint or as far from it as a crossing reaches. -/
theorem x_joint (l : Lane K) (p q : PlacedSegment K) :
    (l.joint p q).stop.x ∈ [q.x₀, q.x₀ - l.reach, q.x₀ + l.reach] ∧
      (l.joint p q).start.x ∈ [q.x₀, q.x₀ - l.reach, q.x₀ + l.reach] := by
  simp only [joint]
  split
  · simp [upright]
  · rcases l.exitY p with _ | ya <;> rcases l.entryY q with _ | yb
    · dsimp only
      split_ifs <;> simp [upright, pointed]
    · simp [upright, pointed]
    · simp [upright, pointed]
    · dsimp only
      split_ifs <;> simp [upright]

theorem succeeds_checkJoints (hReach : Firm l.reach) {segments : List (PlacedSegment K)}
    (h : ∀ p ∈ segments, Firm p.x₀) : Succeeds (l.checkJoints segments) := by
  induction segments with
  | nil => exact succeeds_ok ()
  | cons p rest ih =>
      cases rest with
      | nil => exact succeeds_ok ()
      | cons q rest =>
          obtain ⟨-, hRest⟩ := List.forall_mem_cons.mp h
          have hx := hRest q (by simp)
          have hAround : ∀ x ∈ [q.x₀, q.x₀ - l.reach, q.x₀ + l.reach], Firm x := by
            simpa using ⟨hx, firm_sub hx (operand_of_firm hReach),
              firm_add hx (operand_of_firm hReach)⟩
          obtain ⟨hStop, hStart⟩ := l.x_joint p q
          have hFirm : ∀ x ∈ [(l.joint p q).stop.x, (l.joint p q).start.x], Firm x := by
            simpa using ⟨hAround _ hStop, hAround _ hStart⟩
          rw [checkJoints]
          simp only [allChecked_firm hFirm, ok_bind]
          exact ih hRest

theorem succeeds_bodies (hs : l.styles.options.Steady) {segments : List (PlacedSegment K)}
    (h : ∀ p ∈ segments, l.styles.options.Fills p.segment) (previous : Option (PlacedSegment K))
    (start : BodyEnd K) : Succeeds (l.bodies previous start segments) := by
  induction segments generalizing previous start with
  | nil => exact succeeds_ok []
  | cons p rest ih =>
      obtain ⟨hFirst, hRest⟩ := List.forall_mem_cons.mp h
      cases rest with
      | nil => exact (succeeds_body hs hFirst _ _).bind fun _ _ => succeeds_pure _
      | cons q rest =>
          apply (succeeds_body hs hFirst _ _).bind
          intro own _
          exact (ih hRest (some p) _).bind fun _ _ => succeeds_pure _

theorem succeeds_waveform {styles : Styles K} (hs : styles.options.Steady) {s : PlacedSignal K}
    (hSteady : (Placed.signal s).Steady) (h : ∀ p ∈ s.segments, styles.options.Fills p.segment) :
    Succeeds (waveform styles s) := by
  have hHeight : Firm styles.options.waveHeight := hs.number .waveHeight
  have hBottom := firm_add hSteady.1 (operand_of_firm hHeight)
  have hMiddle := firm_add hSteady.1 (operand_of_firm (firm_div hHeight divisor_two))
  obtain ⟨l, hLane, hStyles, hReach⟩ : ∃ l, ofSignal styles s = .ok l ∧ l.styles = styles ∧
      Firm l.reach := by
    simp only [ofSignal, checked_firm hBottom, checked_firm hMiddle, ok_bind]
    exact ⟨_, rfl, rfl, hs.number .transitionOffset⟩
  subst hStyles
  rw [waveform, hLane, ok_bind]
  split
  · exact succeeds_pure _
  · apply (succeeds_checkJoints hReach hSteady.2).bind
    intro _ _
    exact (succeeds_bodies hs h _ _).bind fun _ _ => succeeds_pure _

end Lane

namespace Figure

variable {styles : Styles K}

theorem succeeds_caption (hs : styles.options.Steady) (note : Option (PlacedCaption K)) :
    Succeeds (caption styles note) := by
  cases note with
  | none => exact succeeds_ok []
  | some note =>
      refine (Succeeds.mapM fun t _ => ?_).bind fun title _ => ?_
      · exact (Styles.succeeds_centred hs _).bind fun _ _ => succeeds_pure _
      · refine (Succeeds.mapM fun t _ => ?_).bind fun numbers _ => succeeds_pure _
        exact (Styles.succeeds_centred hs _).bind fun _ _ => succeeds_pure _

theorem succeeds_bracket (hs : styles.options.Steady) {g : PlacedGroup K}
    (h : (Placed.group g).Steady) : Succeeds (bracket styles g) := by
  simp only [bracket]
  split
  · exact succeeds_pure _
  · apply (compact_firm 2 h.1).bind
    intro x _
    apply (compact_firm 2 h.2).bind
    intro y _
    exact (Styles.succeeds_centred hs _).bind fun _ _ => succeeds_pure _

variable [BEq K]

theorem succeeds_signal (hs : styles.options.Steady) {s : PlacedSignal K}
    (hSteady : (Placed.signal s).Steady) (h : ∀ p ∈ s.segments, styles.options.Fills p.segment) :
    Succeeds (signal styles s) := by
  apply (Styles.succeeds_text hs _ _ _).bind
  intro style _
  exact (Lane.succeeds_waveform hs hSteady h).bind fun _ _ => succeeds_pure _

theorem succeeds_edge (hs : styles.options.Steady) {path : EdgePath K}
    (h : ∀ label ∈ path.spec.label, Small (K := K) label.length) : Succeeds (edge styles path) := by
  rw [edge]
  split
  · exact succeeds_ok _
  · rename_i text hText
    have hLabel : text ∈ path.spec.label := (Option.filter_eq_some_iff.mp hText).1
    have hTwo : Operand (Scalar.whole 2 : K) := operand_digit (by decide) (by decide)
    have hSize : Firm styles.options.fontSize := hs.number .fontSize
    have hWidth := firm_add
      (firm_div (hs.textWidth (h text hLabel)) divisor_two) hTwo
    have hHeight := firm_div hSize divisor_two
    refine Succeeds.bind ?_ fun _ _ => succeeds_pure _
    simp only [edgeLabel, checked_firm hWidth, checked_firm hHeight, ok_bind]
    exact (Styles.succeeds_text hs _ _ _).bind fun _ _ => succeeds_pure _

/-- A layout whose boxes have their colours can be drawn. -/
theorem succeeds_emit {l : Layout K} {o : Options K} (hl : l.Steady) (ho : o.Steady)
    (h : ∀ s ∈ l.signals, ∀ p ∈ s.segments, o.Fills p.segment) {edges : List (EdgeResult K)}
    (hEdges : ∀ path, .resolved path ∈ edges →
      ∀ label ∈ path.spec.label, Small (K := K) label.length) :
    Succeeds (emit l edges o) := by
  apply (Styles.succeeds_ofOptions ho).bind
  intro styles hStyles
  obtain rfl := Styles.options_of_ofOptions hStyles
  apply (succeeds_caption ho l.head).bind
  intro head _
  refine (Succeeds.mapM fun p hp => ?_).bind fun lanes _ => ?_
  · have hSteady := hl.order p hp
    cases p with
    | group g => exact succeeds_bracket ho hSteady
    | signal s =>
        exact succeeds_signal ho hSteady (h s (List.mem_filterMap.mpr ⟨_, hp, rfl⟩))
  · apply (succeeds_caption ho l.foot).bind
    intro foot _
    refine (Succeeds.mapM fun result hResult => ?_).bind fun resolved _ => succeeds_pure _
    cases result with
    | resolved path => exact succeeds_edge ho (hEdges path hResult)
    | broken edge => exact succeeds_ok []

end Figure
end TimingDiagram
