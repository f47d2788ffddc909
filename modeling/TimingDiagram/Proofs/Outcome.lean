import Mathlib.Data.List.Forall2
import Mathlib.Tactic.SplitIfs
import TimingDiagram.Log.Record

/-! Outcomes of computations that can fail. A sequence of computations has a result when each
part of it has one, and the first part without a result decides what the failure is. -/
namespace TimingDiagram

variable {ε α β : Type}

/-- A sequence of computations succeeds when each of its parts does. -/
theorem bind_eq_ok_iff {x : Except ε α} {f : α → Except ε β} {b : β} :
    x >>= f = .ok b ↔ ∃ a, x = .ok a ∧ f a = .ok b := by
  cases x with
  | error e =>
      constructor
      · intro h
        cases h
      · rintro ⟨_, h, _⟩
        cases h
  | ok a =>
      constructor
      · exact fun h => ⟨a, rfl, h⟩
      · rintro ⟨_, h, hf⟩
        cases h
        exact hf

/-- A sequence of computations fails where its first failing part does. -/
theorem bind_eq_error_iff {x : Except ε α} {f : α → Except ε β} {e : ε} :
    x >>= f = .error e ↔ x = .error e ∨ ∃ a, x = .ok a ∧ f a = .error e := by
  cases x with
  | error d =>
      constructor
      · intro h
        cases h
        exact .inl rfl
      · rintro (h | ⟨_, h, _⟩)
        · cases h
          rfl
        · cases h
  | ok a =>
      constructor
      · exact fun h => .inr ⟨a, rfl, h⟩
      · rintro (h | ⟨_, h, hf⟩)
        · cases h
        · cases h
          exact hf

@[simp] theorem ok_bind (a : α) (f : α → Except ε β) :
    (Except.ok a : Except ε α) >>= f = f a := rfl

@[simp] theorem error_bind (e : ε) (f : α → Except ε β) :
    (Except.error e : Except ε α) >>= f = .error e := rfl

@[simp] theorem throw_eq_error (e : ε) : (throw e : Except ε α) = .error e := rfl

/-- A check passes when what it rules out is not the case. -/
theorem ite_error_eq_ok_iff {c : Prop} [Decidable c] {e : ε} {x : Except ε α} {a : α} :
    (if c then .error e else x) = .ok a ↔ ¬ c ∧ x = .ok a := by
  split_ifs with hc <;> simp [hc]

theorem mapError_eq_ok_iff {δ : Type} {x : Except ε α} {f : ε → δ} {a : α} :
    x.mapError f = .ok a ↔ x = .ok a := by
  cases x <;> simp [Except.mapError]

theorem map_eq_ok_iff {x : Except ε α} {f : α → β} {b : β} :
    x.map f = .ok b ↔ ∃ a, x = .ok a ∧ f a = b := by
  cases x <;> simp [Except.map]

theorem map_eq_error_iff {x : Except ε α} {f : α → β} {e : ε} :
    x.map f = .error e ↔ x = .error e := by
  cases x <;> simp [Except.map]

/-- A computation that has a result. -/
def Succeeds (x : Except ε α) : Prop := ∃ a, x = .ok a

@[simp] theorem succeeds_ok (a : α) : Succeeds (.ok a : Except ε α) := ⟨a, rfl⟩

@[simp] theorem succeeds_pure (a : α) : Succeeds (pure a : Except ε α) := ⟨a, rfl⟩

@[simp] theorem not_succeeds_error (e : ε) : ¬ Succeeds (.error e : Except ε α) := by
  rintro ⟨a, h⟩
  cases h

instance (x : Except ε α) : Decidable (Succeeds x) :=
  match x with
  | .ok a => .isTrue ⟨a, rfl⟩
  | .error _ => .isFalse nofun

theorem succeeds_iff {x : Except ε α} : Succeeds x ↔ ∀ e, x ≠ .error e := by
  cases x with
  | error e => simp
  | ok a => simp

/-- A computation that succeeds in the good case and fails in each bad one is described by
them, when there is no further case. -/
theorem succeeds_iff_and_error_iff {x : Except ε α} {good : Prop} {bad : ε → Prop}
    (hTotal : good ∨ ∃ e, bad e) (hGood : good → Succeeds x)
    (hBad : ∀ e, bad e → x = .error e) :
    (Succeeds x ↔ good) ∧ ∀ e, x = .error e ↔ bad e := by
  rcases hTotal with hCase | ⟨d, hCase⟩
  · have hSucceeds := hGood hCase
    refine ⟨⟨fun _ => hCase, fun _ => hSucceeds⟩, fun e => ⟨fun h => ?_, hBad e⟩⟩
    exact absurd h (succeeds_iff.mp hSucceeds e)
  · have hFails := hBad d hCase
    refine ⟨⟨fun h => ?_, hGood⟩, fun e => ⟨fun h => ?_, hBad e⟩⟩
    · rw [hFails] at h
      exact absurd h (not_succeeds_error d)
    · rw [hFails] at h
      cases h
      exact hCase

theorem Succeeds.bind {x : Except ε α} {f : α → Except ε β} (hx : Succeeds x)
    (hf : ∀ a, x = .ok a → Succeeds (f a)) : Succeeds (x >>= f) := by
  obtain ⟨a, rfl⟩ := hx
  exact hf a rfl

theorem Succeeds.mapM {f : α → Except ε β} {l : List α} (h : ∀ a ∈ l, Succeeds (f a)) :
    Succeeds (l.mapM f) := by
  induction l with
  | nil => exact ⟨[], rfl⟩
  | cons a l ih =>
      rw [List.mapM_cons]
      apply (h a (by simp)).bind
      intro b _
      apply (ih fun c hc => h c (List.mem_cons_of_mem _ hc)).bind
      intro bs _
      exact succeeds_pure _

/-- A row of computations has results of a kind when each of them has one. -/
theorem exists_mapM {p : β → Prop} {f : α → Except ε β} {l : List α}
    (h : ∀ a ∈ l, ∃ b, f a = .ok b ∧ p b) : ∃ results, l.mapM f = .ok results ∧ ∀ b ∈ results, p b := by
  induction l with
  | nil => exact ⟨[], rfl, by simp⟩
  | cons a l ih =>
      obtain ⟨⟨b, hb, hp⟩, hRest⟩ := List.forall_mem_cons.mp h
      obtain ⟨results, hResults, hAll⟩ := ih hRest
      rw [List.mapM_cons, hb, hResults]
      exact ⟨b :: results, rfl, List.forall_mem_cons.mpr ⟨hp, hAll⟩⟩

/-- A row of computations succeeds alike on what a change keeps good. -/
theorem mapM_map_eq_ok {f : α → Except ε β} {g : α → α} (hf : ∀ a b, f a = .ok b → f (g a) = .ok b)
    {l : List α} {results : List β} (h : l.mapM f = .ok results) :
    (l.map g).mapM f = .ok results := by
  induction l generalizing results with
  | nil => exact h
  | cons a l ih =>
      rw [List.mapM_cons] at h
      obtain ⟨b, hb, h⟩ := bind_eq_ok_iff.mp h
      obtain ⟨bs, hbs, h⟩ := bind_eq_ok_iff.mp h
      rw [List.map_cons, List.mapM_cons, hf a b hb, ih hbs]
      exact h

/-- A row of computations that all have results gives these. -/
theorem mapM_map_of_eq_ok {γ : Type} {f : α → Except ε β} {g : γ → α} {h : γ → β}
    (hf : ∀ c, f (g c) = .ok (h c)) (l : List γ) : (l.map g).mapM f = .ok (l.map h) := by
  induction l with
  | nil => rfl
  | cons c l ih =>
      rw [List.map_cons, List.mapM_cons, hf, ih]
      rfl

theorem forall₂_of_mapM {f : α → Except ε β} {l : List α} {results : List β}
    (h : l.mapM f = .ok results) : List.Forall₂ (fun a b => f a = .ok b) l results := by
  induction l generalizing results with
  | nil =>
      cases h
      exact .nil
  | cons a l ih =>
      rw [List.mapM_cons] at h
      obtain ⟨b, hb, h⟩ := bind_eq_ok_iff.mp h
      obtain ⟨bs, hbs, h⟩ := bind_eq_ok_iff.mp h
      cases h
      exact .cons hb (ih hbs)

theorem exists_of_mem_forall₂ {r : α → β → Prop} {l : List α} {m : List β}
    (h : List.Forall₂ r l m) {b : β} (hb : b ∈ m) : ∃ a ∈ l, r a b := by
  induction h with
  | nil => cases hb
  | @cons a c l m hFirst _ ih =>
      rcases List.mem_cons.mp hb with rfl | hb
      · exact ⟨a, by simp, hFirst⟩
      · obtain ⟨d, hd, hRest⟩ := ih hb
        exact ⟨d, List.mem_cons_of_mem _ hd, hRest⟩

theorem forall₂_comp {γ : Type} {r : α → β → Prop} {q : β → γ → Prop} {l : List α} {m : List β}
    {n : List γ} (h : List.Forall₂ r l m) (hMore : List.Forall₂ q m n) :
    List.Forall₂ (fun a c => ∃ b ∈ m, r a b ∧ q b c) l n := by
  induction h generalizing n with
  | nil =>
      cases hMore
      exact .nil
  | @cons a b l m hFirst _ ih =>
      cases hMore with
      | cons hSecond hRest =>
          refine .cons ⟨b, by simp, hFirst, hSecond⟩ ((ih hRest).imp fun _ _ => ?_)
          rintro ⟨d, hd, hBoth⟩
          exact ⟨d, List.mem_cons_of_mem _ hd, hBoth⟩

/-- The failure of a row of computations is that of the first one that fails. -/
theorem mapM_eq_error_iff {f : α → Except ε β} {l : List α} {e : ε} :
    l.mapM f = .error e ↔ ∃ before a after, l = before ++ a :: after ∧
      (∀ b ∈ before, Succeeds (f b)) ∧ f a = .error e := by
  induction l with
  | nil =>
      constructor
      · intro h
        cases h
      · rintro ⟨before, a, after, h, _⟩
        simp at h
  | cons a l ih =>
      rw [List.mapM_cons, bind_eq_error_iff]
      constructor
      · rintro (h | ⟨b, hb, h⟩)
        · exact ⟨[], a, l, rfl, by simp, h⟩
        · rcases bind_eq_error_iff.mp h with h | ⟨_, _, h⟩
          · obtain ⟨before, c, after, rfl, hBefore, hc⟩ := ih.mp h
            exact ⟨a :: before, c, after, rfl, List.forall_mem_cons.mpr ⟨⟨b, hb⟩, hBefore⟩, hc⟩
          · cases h
      · rintro ⟨before, c, after, hl, hBefore, hc⟩
        cases before with
        | nil =>
            cases hl
            exact .inl hc
        | cons d before =>
            cases hl
            obtain ⟨b, hb⟩ := hBefore a (by simp)
            refine .inr ⟨b, hb, bind_eq_error_iff.mpr (.inl (ih.mpr ?_))⟩
            exact ⟨before, c, after, rfl, fun b hb => hBefore b (List.mem_cons_of_mem _ hb), hc⟩

@[simp] theorem liftM_ok (a : α) :
    (liftM (Except.ok a : Except Fault α) : Except Error α) = .ok a := rfl

theorem liftM_eq_ok_iff {x : Except Fault α} {a : α} :
    (liftM x : Except Error α) = .ok a ↔ x = .ok a := mapError_eq_ok_iff

theorem mapM_liftM (f : α → Except Fault β) (l : List α) :
    (l.mapM fun a => (liftM (f a) : Except Error β)) = liftM (l.mapM f) := by
  induction l with
  | nil => rfl
  | cons a l ih =>
      rw [List.mapM_cons, List.mapM_cons, ih]
      cases f a with
      | error cause => rfl
      | ok b => cases l.mapM f <;> rfl

/-- Sequences of computations are one when they start alike as far as what follows can tell. -/
theorem bind_congr_of_map {γ : Type} {x y : Except ε α} {f : α → Except ε β} {g : α → γ}
    (h : x.map g = y.map g) (hf : ∀ a b, g a = g b → f a = f b) : x >>= f = y >>= f := by
  cases x with
  | error e =>
      cases y <;> cases h
      rfl
  | ok a =>
      cases y with
      | error e => cases h
      | ok b => exact hf a b (Except.ok.inj h)

/-- A computation that fails only where a part of it cannot be computed, or for a reason that is
known. -/
def FailsOnlyBy (known : Error → Prop) (x : Except Error α) : Prop :=
  ∀ e, x = .error e → (∃ cause, e = .fault cause) ∨ known e

section Failures

variable {known : Error → Prop}

theorem failsOnlyBy_ok (a : α) : FailsOnlyBy known (.ok a : Except Error α) := nofun

theorem failsOnlyBy_liftM (x : Except Fault α) : FailsOnlyBy known (liftM x : Except Error α) := by
  intro e h
  cases x with
  | error cause =>
      cases h
      exact .inl ⟨cause, rfl⟩
  | ok a => cases h

theorem FailsOnlyBy.bind {x : Except Error α} {f : α → Except Error β} (hx : FailsOnlyBy known x)
    (hf : ∀ a, x = .ok a → FailsOnlyBy known (f a)) : FailsOnlyBy known (x >>= f) := by
  intro e h
  rcases bind_eq_error_iff.mp h with hFirst | ⟨a, ha, hRest⟩
  · exact hx e hFirst
  · exact hf a ha e hRest

end Failures

namespace Logged

theorem fail_bind (e : Error) (f : α → Logged β) : fail e >>= f = fail e := rfl

@[simp] theorem outcome_liftM (x : Except Error α) : (liftM x : Logged α).outcome = x := rfl

@[simp] theorem outcome_liftM_fault (x : Except Fault α) :
    (liftM x : Logged α).outcome = liftM x := rfl

@[simp] theorem outcome_forM_tell (records : List Record) :
    (records.forM tell).outcome = .ok () := by
  induction records with
  | nil => rfl
  | cons record records ih =>
      change (tell record >>= fun _ => records.forM tell).outcome = _
      rw [outcome_bind, outcome_tell, ok_bind, ih]

/-- Nothing is told of a result that is only passed on. -/
theorem records_map (x : Except Error α) (f : α → β) :
    ((liftM x : Logged α) >>= fun a => pure (f a)).records = [] := by
  cases x <;> rfl

/-- A computation that tells nothing is its result. -/
theorem eq_pure {x : Logged α} {a : α} (hRecords : x.records = []) (h : x.outcome = .ok a) :
    x = pure a := by
  obtain ⟨records, outcome⟩ := x
  cases hRecords
  cases h
  rfl

/-- The outcome of a row of computations does not depend on what they tell. -/
theorem outcome_mapM (f : α → Logged β) (l : List α) :
    (l.mapM f).outcome = l.mapM fun a => (f a).outcome := by
  induction l with
  | nil => rfl
  | cons a l ih =>
      simp only [List.mapM_cons, outcome_bind, outcome_pure, ih]
      rfl

end Logged
end TimingDiagram
