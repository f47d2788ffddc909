import TimingDiagram.Proofs.Edge.Broken
import TimingDiagram.Proofs.Figure.Waveform

/-! The parts of a figure, in any arithmetic: what each of them is drawn with, and what the
primitives in it depict. -/
namespace TimingDiagram

variable {K : Type}

/-- A title and a row of numbers are drawn: the title if there is something to show. -/
structure PlacedCaption.Drawn (note : Option (PlacedCaption K)) (title numbers : List (Primitive K)) :
    Prop where
  title_role : ∀ p ∈ title, p.role = .title
  title_text : title.map Primitive.text =
    (note.bind PlacedCaption.title).toList.map fun t => some t.text
  numbers_role : ∀ p ∈ numbers, p.role = .tick
  numbers_text : numbers.map Primitive.text =
    (note.elim [] PlacedCaption.numbers).map fun t => some t.text

theorem PlacedCaption.Drawn.role {note : Option (PlacedCaption K)}
    {title numbers : List (Primitive K)} (h : Drawn note title numbers) :
    ∀ p ∈ title ++ numbers, p.role ∈ [Role.title, .tick] :=
  List.forall_mem_append.mpr
    ⟨fun p hp => by simp [h.title_role p hp], fun p hp => by simp [h.numbers_role p hp]⟩

/-- A bracket is drawn with its label, if there is one to show. -/
structure BracketDrawn (label : Option String) (bracket : Primitive K)
    (texts : List (Primitive K)) : Prop where
  bracket_role : bracket.role = .group
  texts_role : ∀ p ∈ texts, p.role = .groupLabel
  text : texts.map Primitive.text = (shownText label).toList.map some

theorem BracketDrawn.role {label : Option String} {bracket : Primitive K}
    {texts : List (Primitive K)} (h : BracketDrawn label bracket texts) :
    ∀ p ∈ bracket :: texts, p.role ∈ [Role.group, .groupLabel] :=
  List.forall_mem_cons.mpr
    ⟨by simp [h.bracket_role], fun p hp => by simp [h.texts_role p hp]⟩

/-- An edge is drawn as a line with its arrowheads, and a label on a blank strip if there is one to
show. -/
structure EdgeSpec.Drawn (e : EdgeSpec) (line : Primitive K) (heads strip : List (Primitive K)) :
    Prop where
  line_role : line.role = .edge
  heads_role : ∀ p ∈ heads, p.role = .arrow
  heads_length : heads.length = [e.style.arrowStart, e.style.arrowEnd].count true
  strip_role : ∀ p ∈ strip, p.role = .edgeLabel
  strip_length : strip.length = if (shownText e.label).isSome then 2 else 0
  text : ∀ text ∈ shownText e.label, ∃ p ∈ strip, p.text = some text

namespace Figure

variable [Scalar K] {styles : Styles K} {drawn : List (Primitive K)}

omit [Scalar K] in
theorem drawn_of_mapM {f : PlacedText K → Except Fault (Primitive K)} {role : Role}
    (hf : ∀ t p, f t = .ok p → p.role = role ∧ p.text = some t.text) {texts : List (PlacedText K)}
    (h : texts.mapM f = .ok drawn) :
    (∀ p ∈ drawn, p.role = role) ∧
      drawn.map Primitive.text = texts.map fun t => some t.text := by
  have hDrawn := forall₂_of_mapM h
  clear h
  induction hDrawn with
  | nil => exact ⟨nofun, rfl⟩
  | cons hFirst _ ih =>
      obtain ⟨hRole, hText⟩ := hf _ _ hFirst
      exact ⟨List.forall_mem_cons.mpr ⟨hRole, ih.1⟩, by rw [List.map_cons, hText, ih.2, List.map_cons]⟩

theorem of_label {styles : Styles K} {more : Style} {role : Role} (t : PlacedText K) (p : Primitive K)
    (h : (do return Primitive.label t.point t.text (← styles.centred more) role) = Except.ok p) :
    p.role = role ∧ p.text = some t.text := by
  obtain ⟨_, _, h⟩ := bind_eq_ok_iff.mp h
  cases h
  exact ⟨rfl, rfl⟩

theorem of_caption {note : Option (PlacedCaption K)} (h : caption styles note = .ok drawn) :
    ∃ title numbers, drawn = title ++ numbers ∧ PlacedCaption.Drawn note title numbers := by
  cases note with
  | none =>
      cases h
      exact ⟨[], [], rfl, nofun, rfl, nofun, rfl⟩
  | some note =>
      rw [caption] at h
      obtain ⟨title, hTitle, h⟩ := bind_eq_ok_iff.mp h
      obtain ⟨numbers, hNumbers, h⟩ := bind_eq_ok_iff.mp h
      cases h
      obtain ⟨hTitleRole, hTitleText⟩ := drawn_of_mapM of_label hTitle
      obtain ⟨hNumbersRole, hNumbersText⟩ := drawn_of_mapM of_label hNumbers
      exact ⟨title, numbers, rfl, hTitleRole, hTitleText, hNumbersRole, hNumbersText⟩

theorem of_bracket {g : PlacedGroup K} (h : bracket styles g = .ok drawn) :
    ∃ line texts, drawn = line :: texts ∧ BracketDrawn g.label line texts := by
  rw [bracket] at h
  cases hLabel : g.label.filter fun s => !s.isEmpty with
  | none =>
      rw [hLabel] at h
      cases h
      exact ⟨_, [], rfl, rfl, nofun, by rw [shownText, hLabel]; rfl⟩
  | some text =>
      rw [hLabel] at h
      obtain ⟨_, _, h⟩ := bind_eq_ok_iff.mp h
      obtain ⟨_, _, h⟩ := bind_eq_ok_iff.mp h
      obtain ⟨_, _, h⟩ := bind_eq_ok_iff.mp h
      cases h
      exact ⟨_, [_], rfl, rfl, List.forall_mem_singleton.mpr rfl, by rw [shownText, hLabel]; rfl⟩

variable [Add K] [Sub K]

theorem role_unresolvedEdge (styles : Styles K) (result : EdgeResult K) :
    ∀ p ∈ unresolvedEdge styles result, p.role = .unresolved := by
  intro p hp
  cases result with
  | resolved path => cases hp
  | broken broken =>
      obtain ⟨_, _, rfl⟩ := List.mem_map.mp hp
      rfl

variable [Mul K] [Div K]

theorem of_edgeLabel {point : Point K} {text : String}
    (h : edgeLabel styles point text = .ok drawn) :
    (∀ p ∈ drawn, p.role = .edgeLabel) ∧ drawn.length = 2 ∧ ∃ p ∈ drawn, p.text = some text := by
  rw [edgeLabel] at h
  obtain ⟨_, _, h⟩ := bind_eq_ok_iff.mp h
  obtain ⟨_, _, h⟩ := bind_eq_ok_iff.mp h
  obtain ⟨_, _, h⟩ := bind_eq_ok_iff.mp h
  cases h
  exact ⟨List.forall_mem_cons.mpr ⟨rfl, List.forall_mem_singleton.mpr rfl⟩, rfl,
    _, List.mem_cons_of_mem _ (List.mem_singleton_self _), rfl⟩

variable [BEq K]

omit [Div K] in
theorem of_edgeLine (styles : Styles K) (path : EdgePath K) :
    ∃ line heads, edgeLine styles path = line :: heads ∧ line.role = .edge ∧
      (∀ p ∈ heads, p.role = .arrow) ∧
      heads.length = [path.spec.style.arrowStart, path.spec.style.arrowEnd].count true := by
  rw [edgeLine]
  cases path.spec.style.arrowStart <;> cases path.spec.style.arrowEnd
  all_goals exact ⟨_, _, rfl, rfl, by simp [arrowhead, Primitive.shape], rfl⟩

theorem of_edge {path : EdgePath K} (h : edge styles path = .ok drawn) :
    ∃ line heads strip, drawn = line :: heads ++ strip ∧ path.spec.Drawn line heads strip := by
  obtain ⟨line, heads, hLine, hRole, hHeads, hCount⟩ := of_edgeLine styles path
  rw [edge] at h
  cases hLabel : path.spec.label.filter fun s => !s.isEmpty with
  | none =>
      rw [hLabel] at h
      cases h
      refine ⟨line, heads, [], by rw [hLine, List.append_nil], hRole, hHeads, hCount, nofun, ?_, ?_⟩
      · simp [shownText, hLabel]
      · simp [shownText, hLabel]
  | some text =>
      rw [hLabel] at h
      obtain ⟨strip, hStrip, h⟩ := bind_eq_ok_iff.mp h
      cases h
      obtain ⟨hStripRole, hLength, hText⟩ := of_edgeLabel hStrip
      refine ⟨line, heads, strip, by rw [hLine], hRole, hHeads, hCount, hStripRole, ?_, ?_⟩
      · simp [shownText, hLabel, hLength]
      · simpa [shownText, hLabel] using hText

theorem of_signal {s : PlacedSignal K} (h : signal styles s = .ok drawn) :
    ∃ name wave, drawn = name :: wave ∧ name.role = .signalName ∧ name.text = some s.name ∧
      Lane.waveform styles s = .ok wave := by
  rw [signal] at h
  obtain ⟨_, _, h⟩ := bind_eq_ok_iff.mp h
  obtain ⟨wave, hWave, h⟩ := bind_eq_ok_iff.mp h
  cases h
  exact ⟨_, wave, rfl, rfl, rfl, hWave⟩

/-- A figure is made of its parts in their order. -/
theorem of_emit {l : Layout K} {edges : List (EdgeResult K)} {o : Options K}
    (h : emit l edges o = .ok drawn) :
    ∃ styles head lanes foot lines, Styles.ofOptions o = .ok styles ∧
      caption styles l.head = .ok head ∧ l.order.mapM (placed styles) = .ok lanes ∧
      caption styles l.foot = .ok foot ∧ edges.mapM (resolvedEdge styles) = .ok lines ∧
      drawn = head ++ lanes.flatten ++ foot ++ lines.flatten ++
        edges.flatMap (unresolvedEdge styles) := by
  rw [emit] at h
  obtain ⟨styles, hStyles, h⟩ := bind_eq_ok_iff.mp h
  obtain ⟨head, hHead, h⟩ := bind_eq_ok_iff.mp h
  obtain ⟨lanes, hLanes, h⟩ := bind_eq_ok_iff.mp h
  obtain ⟨foot, hFoot, h⟩ := bind_eq_ok_iff.mp h
  obtain ⟨lines, hLines, h⟩ := bind_eq_ok_iff.mp h
  cases h
  exact ⟨styles, head, lanes, foot, lines, hStyles, hHead, hLanes, hFoot, hLines, rfl⟩

/-- The primitives of a placed signal stand together in a figure, its name before its waveform. -/
theorem signal_of_emit {l : Layout K} {edges : List (EdgeResult K)} {o : Options K}
    (h : emit l edges o = .ok drawn) {s : PlacedSignal K} (hs : s ∈ l.signals) :
    ∃ styles before name wave after, Styles.ofOptions o = .ok styles ∧
      drawn = before ++ name :: wave ++ after ∧
      name.role = .signalName ∧ name.text = some s.name ∧ Lane.waveform styles s = .ok wave := by
  obtain ⟨styles, head, lanes, foot, lines, hStyles, _, hLanes, _, _, rfl⟩ := of_emit h
  obtain ⟨placed, hPlaced, hOwn⟩ := List.mem_filterMap.mp hs
  cases placed with
  | group g => cases hOwn
  | signal s' =>
      cases hOwn
      obtain ⟨part, hPart, hDrawn⟩ := exists_of_mem_forall₂ (forall₂_of_mapM hLanes).flip hPlaced
      obtain ⟨name, wave, rfl, hRole, hText, hWave⟩ := of_signal hDrawn
      obtain ⟨first, others, rfl⟩ := List.append_of_mem hPart
      refine ⟨styles, head ++ first.flatten, name, wave, others.flatten ++ foot ++ lines.flatten ++
        edges.flatMap (unresolvedEdge styles), hStyles, ?_, hRole, hText, hWave⟩
      simp [List.append_assoc]

end Figure
end TimingDiagram
