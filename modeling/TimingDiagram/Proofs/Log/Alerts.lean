import TimingDiagram.Figure.Diagram
import TimingDiagram.Proofs.Document.Walk

/-! What is told besides records for debugging. Loading a document, reading its waves and placing
its lanes tell nothing of that kind. -/
namespace TimingDiagram
namespace Logged

variable {α β : Type} {x : Logged α} {f : α → Logged β} {a : α}

/-- The records that are not for debugging alone. -/
def alerts (x : Logged α) : List Record := x.records.filter fun r => r.level ≠ Severity.debug

@[simp] theorem alerts_pure (a : α) : (pure a : Logged α).alerts = [] := rfl

@[simp] theorem alerts_liftM_fault (y : Except Fault α) : (liftM y : Logged α).alerts = [] := rfl

@[simp] theorem alerts_tell (r : Record) :
    (tell r).alerts = [r].filter fun r => r.level ≠ Severity.debug := rfl

theorem alerts_bind_of_ok (h : x.outcome = .ok a) :
    (x >>= f).alerts = x.alerts ++ (f a).alerts := by
  rw [alerts, records_bind, h, List.filter_append]
  rfl

/-- A sequence of computations tells no alert when no part of it does. -/
theorem alerts_bind_eq_nil (hx : x.alerts = [])
    (hf : ∀ a, x.outcome = .ok a → (f a).alerts = []) : (x >>= f).alerts = [] := by
  cases h : x.outcome with
  | error e =>
      rw [alerts, records_bind, h]
      simpa [alerts] using hx
  | ok a => rw [alerts_bind_of_ok h, hx, hf a h, List.nil_append]

theorem alerts_foldlM {γ : Type} {step : γ → α → Logged γ} (h : ∀ c a, (step c a).alerts = [])
    (c : γ) (l : List α) : (l.foldlM step c).alerts = [] := by
  induction l generalizing c with
  | nil => rfl
  | cons a l ih =>
      rw [List.foldlM_cons]
      exact alerts_bind_eq_nil (h c a) fun next _ => ih next

/-- A row of computations that succeed tells the alerts of all of them. -/
theorem alerts_mapM {l : List α} (h : ∀ a ∈ l, Succeeds (f a).outcome) :
    (l.mapM f).alerts = l.flatMap fun a => (f a).alerts := by
  induction l with
  | nil => rfl
  | cons a l ih =>
      obtain ⟨⟨b, hb⟩, hRest⟩ := List.forall_mem_cons.mp h
      obtain ⟨bs, hbs⟩ : Succeeds (l.mapM f).outcome := by
        rw [outcome_mapM]
        exact Succeeds.mapM hRest
      rw [List.mapM_cons, alerts_bind_of_ok hb, alerts_bind_of_ok hbs, ih hRest, alerts_pure,
        List.append_nil, List.flatMap_cons]

theorem alerts_forM_tell (records : List Record) :
    (records.forM tell).alerts = records.filter fun r => r.level ≠ Severity.debug := by
  induction records with
  | nil => rfl
  | cons r records ih =>
      change (tell r >>= fun _ => records.forM tell).alerts = _
      rw [alerts_bind_of_ok rfl, ih, alerts_tell, ← List.filter_append, List.singleton_append]

end Logged

namespace Item

variable {α β : Type} {f : α → Logged β}

mutual

theorem alerts_traverse (h : ∀ a, (f a).alerts = []) (item : Item α) :
    (item.traverse f).alerts = [] := by
  cases item with
  | signal s =>
      rw [traverse]
      exact Logged.alerts_bind_eq_nil (h s) fun _ _ => rfl
  | spacer => rfl
  | group label members =>
      rw [traverse]
      exact Logged.alerts_bind_eq_nil (alerts_traverseAll h members) fun _ _ => rfl

/-- A computation on every signal tells no alert when it tells none on a signal. -/
theorem alerts_traverseAll (h : ∀ a, (f a).alerts = []) (items : List (Item α)) :
    (traverseAll f items).alerts = [] := by
  cases items with
  | nil => rfl
  | cons item items =>
      rw [traverseAll]
      exact Logged.alerts_bind_eq_nil (alerts_traverse h item) fun _ _ =>
        Logged.alerts_bind_eq_nil (alerts_traverseAll h items) fun _ _ => rfl

end

end Item

open Logged

theorem Signal.alerts_compile {K : Type} (s : Signal K) : s.compile.alerts = [] := by
  have hLexed : s.lexed.alerts = [] :=
    alerts_bind_eq_nil rfl fun _ _ => alerts_bind_eq_nil rfl fun _ _ => rfl
  have hResolved (tokens : List Token) : (s.resolved tokens).alerts = [] :=
    alerts_bind_eq_nil rfl fun _ _ => alerts_bind_eq_nil rfl fun _ _ => rfl
  exact alerts_bind_eq_nil hLexed fun tokens _ =>
    alerts_bind_eq_nil (hResolved tokens) fun _ _ => rfl

namespace Layout

variable {K : Type} [Add K] [Sub K] [Mul K] [Div K] [LT K] [LE K] [DecidableLT K] [DecidableLE K]
  [Max K] [Min K] [Scalar K]

omit [Add K] [Sub K] [Mul K] [Div K] [LT K] [LE K] [DecidableLT K] [DecidableLE K] [Max K]
  [Min K] in
theorem level_of_summary {l : Layout K} {record : Record} (h : summary l = .ok record) :
    record.level = Severity.debug := by
  rw [summary] at h
  obtain ⟨_, _, h⟩ := bind_eq_ok_iff.mp h
  obtain ⟨_, _, h⟩ := bind_eq_ok_iff.mp h
  cases h
  rfl

theorem alerts_compute (o : Options K) (items : List (Item (Compiled K)))
    (head foot : Option Caption) : (compute o items head foot).alerts = [] := by
  rw [compute]
  refine alerts_bind_eq_nil rfl fun l _ => alerts_bind_eq_nil rfl fun record hRecord => ?_
  have hLevel := level_of_summary (liftM_eq_ok_iff.mp hRecord)
  refine alerts_bind_eq_nil ?_ fun _ _ => rfl
  rw [alerts_tell, List.filter_singleton, hLevel]
  rfl

end Layout

section Loading

variable {K : Type} [Scalar K]

theorem Signal.alerts_ofEntries (entries : List (String × Value)) :
    (ofEntries entries : Logged (Signal K)).alerts = [] := by
  apply List.filter_eq_nil_iff.mpr
  intro r hr
  obtain ⟨entry, _, rfl⟩ := List.mem_map.mp hr
  exact Bool.false_ne_true

/-- Reading the entries of a document, whatever groups are open, tells no alert. -/
theorem Document.alerts_readItems (label : Option String) (members : List (Item (Signal K)))
    (rest : List Value) (outer : List (OpenGroup K)) :
    (readItems label members rest outer).alerts = [] := by
  induction label, members, rest, outer using readItems.induct with
  | case1 label members =>
      rw [readItems]
      rfl
  | case2 label members parent outer ih =>
      rw [readItems]
      rwa [List.unattach_reverse, List.unattach_attach] at ih
  | case3 label members rest outer ih =>
      rw [readItems]
      exact ih
  | case4 label members entries rest outer hEntries ih =>
      rw [readItems]
      · exact alerts_bind_eq_nil (Signal.alerts_ofEntries entries) fun s _ => ih s
      · exact hEntries
  | case5 label members raw rest outer e hSplit =>
      rw [readItems]
      split
      · rfl
      · simp_all
  | case6 label members raw rest outer inner entries hSplit _ ih =>
      rw [readItems]
      split
      · rfl
      · rename_i inner' entries' hSplit'
        rw [hSplit] at hSplit'
        cases hSplit'
        exact ih
  | case7 label members outer value tail hBlank hMapping hList =>
      rw [readItems]
      · rfl
      all_goals assumption

theorem Options.alerts_applySetting (o : Options K) (key : String) (value : Value) :
    (o.applySetting key value).alerts = [] := by
  rw [applySetting]
  split
  · split <;> exact alerts_bind_eq_nil rfl fun _ _ => rfl
  · split <;> exact alerts_bind_eq_nil rfl fun _ _ => rfl
  · split <;> exact alerts_bind_eq_nil rfl fun _ _ => rfl

theorem Document.alerts_parseCaption (part : String) (raw : Value) :
    (parseCaption part raw).alerts = [] := by
  unfold parseCaption
  split
  · rfl
  · apply List.filter_eq_nil_iff.mpr
    intro r hr
    obtain ⟨entry, _, rfl⟩ := List.mem_map.mp hr
    exact Bool.false_ne_true
  · rfl

variable [Mul K] [LT K] [LE K] [DecidableLT K] [DecidableLE K]

theorem Options.alerts_ofConfig (config : Value) (base : Options K) :
    (ofConfig config base).alerts = [] := by
  unfold ofConfig
  split
  · rfl
  · split
    · refine alerts_bind_eq_nil rfl fun merged _ => alerts_bind_eq_nil ?_ fun o _ => ?_
      · exact alerts_foldlM (fun o entry => o.alerts_applySetting entry.1 entry.2) base merged
      · exact alerts_bind_eq_nil rfl fun _ _ => rfl
    · rfl

theorem Document.alerts_parse (raw : Value) (base : Options K) : (parse raw base).alerts = [] := by
  unfold parse
  split
  · split
    · rfl
    · rename_i signal _
      have hItems : (parseItems signal : Logged (List (Item (Signal K)))).alerts = [] := by
        unfold parseItems
        split
        · exact alerts_readItems none [] _ []
        · rfl
      exact alerts_bind_eq_nil hItems fun _ _ => alerts_bind_eq_nil rfl fun _ _ =>
        alerts_bind_eq_nil (Options.alerts_ofConfig _ base) fun _ _ =>
        alerts_bind_eq_nil (alerts_parseCaption _ _) fun _ _ =>
        alerts_bind_eq_nil (alerts_parseCaption _ _) fun _ _ => rfl
  · rfl

theorem Description.alerts_load [Add K] [Sub K] [Div K] [Max K] [Min K]
    (description : Description K) (options : Option (Options K)) :
    (description.load options).alerts = [] := by
  cases description with
  | raw value => exact Document.alerts_parse value _
  | parsed document => rfl

end Loading
end TimingDiagram
