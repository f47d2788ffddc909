import TimingDiagram.Proofs.Figure.Inventory

/-! The waveforms of a figure, read off its primitives. Each stands after the name of its signal and
ends where something else is drawn, so that the waveforms of a figure are those of the placed
signals in their order. -/
namespace TimingDiagram

/-- What is related to the element in a place of a list stands in the same place. -/
theorem getElem?_of_forall₂ {α β : Type} {r : α → β → Prop} {xs : List α} {ys : List β}
    (h : List.Forall₂ r xs ys) {i : Nat} {x : α} (hx : xs[i]? = some x) :
    ∃ y, ys[i]? = some y ∧ r x y := by
  induction h generalizing i with
  | nil => cases hx
  | @cons a b xs ys hFirst _ ih =>
      cases i with
      | zero =>
          cases hx
          exact ⟨b, rfl, hFirst⟩
      | succ i => exact ih hx

namespace Figure

variable {K : Type} {ps rest tail : List (Primitive K)}

/-- The waveforms among some primitives: what follows each name of a signal, as far as it depicts a
part of a waveform. -/
def waves : List (Primitive K) → List (List (Primitive K))
  | [] => []
  | p :: rest =>
    if p.role = .signalName then rest.takeWhile (fun q => q.role ∈ Role.ofWave) :: waves rest
    else waves rest

theorem waves_append_of_foreign (h : ∀ p ∈ ps, p.role ≠ .signalName) (rest : List (Primitive K)) :
    waves (ps ++ rest) = waves rest := by
  induction ps with
  | nil => rfl
  | cons p ps ih =>
      obtain ⟨hOwn, hOthers⟩ := List.forall_mem_cons.mp h
      rw [List.cons_append, waves, if_neg hOwn, ih hOthers]

theorem waves_eq_nil (h : ∀ p ∈ ps, p.role ≠ .signalName) : waves ps = [] := by
  have hNone := waves_append_of_foreign h []
  rwa [List.append_nil] at hNone

/-- A waveform ends where something else is drawn. -/
theorem waves_name_cons {name : Primitive K} (hName : name.role = .signalName)
    (hWave : ∀ p ∈ ps, p.role ∈ Role.ofWave) (hRest : ∀ p ∈ rest.head?, p.role ∉ Role.ofWave) :
    waves (name :: (ps ++ rest)) = ps :: waves rest := by
  have hStop : rest.takeWhile (fun q => q.role ∈ Role.ofWave) = [] := by
    cases rest with
    | nil => rfl
    | cons p rest => rw [List.takeWhile_cons, if_neg (by simpa using hRest p rfl)]
  have hOther : ∀ p ∈ ps, p.role ≠ .signalName := fun p hp hRole => by
    have hOwn := hWave p hp
    rw [hRole] at hOwn
    exact absurd hOwn (by decide)
  rw [waves, if_pos hName, List.takeWhile_append_of_pos (by simpa using hWave), hStop,
    List.append_nil, waves_append_of_foreign hOther]

variable [Add K] [Sub K] [Mul K] [Div K] [BEq K] [Scalar K] {styles : Styles K}
  {order : List (Placed K)} {lanes : List (List (Primitive K))}

/-- The waveforms of what is drawn in document order are those of its signals, whatever comes after
it that is no part of a waveform. -/
theorem waves_of_placed (h : List.Forall₂ (fun p drawn => placed styles p = .ok drawn) order lanes)
    (hTail : ∀ p ∈ tail, p.role ≠ .signalName ∧ p.role ∉ Role.ofWave) :
    List.Forall₂ (fun s wave => Lane.waveform styles s = .ok wave)
        (order.filterMap Placed.signal?) (waves (lanes.flatten ++ tail)) ∧
      ∀ p ∈ (lanes.flatten ++ tail).head?, p.role ∉ Role.ofWave := by
  induction h with
  | nil =>
      refine ⟨?_, fun p hp => (hTail p (List.mem_of_mem_head? hp)).2⟩
      rw [List.flatten_nil, List.nil_append, waves_eq_nil fun p hp => (hTail p hp).1]
      exact .nil
  | @cons p drawn order lanes hFirst _ ih =>
      obtain ⟨hWaves, hHead⟩ := ih
      rw [List.flatten_cons, List.append_assoc]
      cases p with
      | group g =>
          obtain ⟨line, texts, rfl, hBracket⟩ := of_bracket hFirst
          have hRoles := hBracket.role
          constructor
          · rw [waves_append_of_foreign fun q hq hName => ?_]
            · exact hWaves
            · exact absurd (hName ▸ hRoles q hq) (by decide)
          · rintro q ⟨⟩
            rw [hBracket.bracket_role]
            decide
      | signal s =>
          obtain ⟨name, wave, rfl, hName, _, hWave⟩ := of_signal hFirst
          constructor
          · rw [List.cons_append, waves_name_cons hName (Lane.role_waveform hWave) hHead]
            exact .cons hWave hWaves
          · rintro q ⟨⟩
            rw [hName]
            decide

/-- The waveforms of a figure are those of the signals of its layout. -/
theorem waves_of_emit {l : Layout K} {edges : List (EdgeResult K)} {o : Options K}
    {drawn : List (Primitive K)} (h : emit l edges o = .ok drawn) :
    ∃ styles, Styles.ofOptions o = .ok styles ∧
      List.Forall₂ (fun s wave => Lane.waveform styles s = .ok wave) l.signals (waves drawn) := by
  obtain ⟨styles, head, lanes, foot, lines, hStyles, hHead, hLanes, hFoot, hLines, rfl⟩ := of_emit h
  obtain ⟨title, ticks, rfl, hAbove⟩ := of_caption hHead
  obtain ⟨titleBelow, ticksBelow, rfl, hBelow⟩ := of_caption hFoot
  have hForeign (roles : List Role) (hNone : ∀ role ∈ roles, role ∉ .signalName :: Role.ofWave)
      {p : Primitive K} (hp : p.role ∈ roles) : p.role ≠ .signalName ∧ p.role ∉ Role.ofWave := by
    simpa using hNone _ hp
  have hTail : ∀ p ∈ titleBelow ++ ticksBelow ++ lines.flatten ++
      edges.flatMap (unresolvedEdge styles), p.role ≠ .signalName ∧ p.role ∉ Role.ofWave := by
    intro p hp
    rcases List.mem_append.mp hp with hp | hp
    · rcases List.mem_append.mp hp with hp | hp
      · exact hForeign [.title, .tick] (by decide) (hBelow.role p hp)
      · exact hForeign [.edge, .arrow, .edgeLabel] (by decide) (role_resolvedEdge hLines p hp)
    · obtain ⟨result, _, hp⟩ := List.mem_flatMap.mp hp
      exact hForeign [.unresolved] (by decide)
        (List.mem_singleton.mpr (role_unresolvedEdge styles result p hp))
  refine ⟨styles, hStyles, ?_⟩
  have hWaves := (waves_of_placed (forall₂_of_mapM hLanes) hTail).1
  simp only [List.append_assoc] at hWaves ⊢
  rw [← List.append_assoc title, waves_append_of_foreign fun p hp => ?_]
  · exact hWaves
  · exact (hForeign [.title, .tick] (by decide) (hAbove.role p hp)).1

end Figure

/-- The waveforms of a figure in the order of its signals. -/
def Diagram.waves {K : Type} (g : Diagram K) : List (List (Primitive K)) :=
  Figure.waves g.primitives

namespace Document

variable {K : Type} [Add K] [Sub K] [Mul K] [Div K] [LT K] [LE K] [DecidableLT K] [DecidableLE K]
  [Max K] [Min K] [BEq K] [Scalar K] {d : Document K} {g : Diagram K} {i : Nat} {s : Signal K}

/-- Each signal of a drawn document is compiled and placed, and has a waveform. -/
theorem wave_of_render (hPeriods : ∀ s ∈ d.signals, 1 ≤ s.period) (h : d.render.outcome = .ok g)
    (hSignal : d.signals[i]? = some s) :
    ∃ items l frame styles c p wave, d.compile.outcome = .ok items ∧
      (Layout.compute d.options items d.head d.foot).outcome = .ok l ∧ g.layout = some l ∧
      Layout.frameOf d.options items = .ok frame ∧ Styles.ofOptions d.options = .ok styles ∧
      s.compile.outcome = .ok c ∧ frame.Sets c p ∧ l.signals[i]? = some p ∧
      Lane.waveform styles p = .ok wave ∧ g.waves[i]? = some wave := by
  obtain ⟨items, l, edges, hItems, hLayout, _, hDrawn, hg⟩ := of_render h
  obtain ⟨frame, hFrame, hPlaced⟩ := Layout.sets_of_compute hPeriods hItems hLayout
  obtain ⟨styles, hStyles, hWaves⟩ := Figure.waves_of_emit hDrawn
  obtain ⟨p, hp, c, _, ⟨rfl, hOwn⟩, hSets⟩ := getElem?_of_forall₂ hPlaced hSignal
  obtain ⟨wave, hWave, hDraws⟩ := getElem?_of_forall₂ hWaves hp
  exact ⟨items, l, frame, styles, c, p, wave, hItems, hLayout, by rw [hg], hFrame, hStyles,
    hOwn.compiles, hSets, hp, hDraws, hWave⟩

end Document
end TimingDiagram
