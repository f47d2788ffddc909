import TimingDiagram.Error

/-! What is told while a diagram is made, and computations that tell it. The records
of a computation survive its failure. -/
namespace TimingDiagram

/-- How much a record matters; larger is more. -/
abbrev Severity := Int

namespace Severity

def debug : Severity := 10

def warning : Severity := 30

def name (level : Severity) : String :=
  if level = 10 then "DEBUG"
  else if level = 20 then "INFO"
  else if level = 30 then "WARNING"
  else if level = 40 then "ERROR"
  else if level = 50 then "CRITICAL"
  else if level = 0 then "NOTSET"
  else "Level " ++ toString level

def ofName? : String → Option Severity
  | "CRITICAL" => some 50
  | "FATAL" => some 50
  | "ERROR" => some 40
  | "WARN" => some 30
  | "WARNING" => some 30
  | "INFO" => some 20
  | "DEBUG" => some 10
  | "NOTSET" => some 0
  | _ => none

end Severity

/-- Something told, by the part of the program that is named. -/
structure Record where
  level : Severity
  source : String
  message : String
  deriving DecidableEq, Repr

/-- An outcome together with what was told on the way to it. -/
structure Logged (α : Type) where
  records : List Record
  outcome : Except Error α

namespace Logged

/-- A computation that tells nothing. -/
def ofExcept {α : Type} (x : Except Error α) : Logged α := ⟨[], x⟩

/-- The second computation runs on the result of the first, if there is one. -/
def andThen {α β : Type} (x : Logged α) (f : α → Logged β) : Logged β :=
  match x.outcome with
  | .error e => ⟨x.records, .error e⟩
  | .ok a => let y := f a; ⟨x.records ++ y.records, y.outcome⟩

instance : Monad Logged where
  pure a := ⟨[], .ok a⟩
  bind := andThen

instance : MonadLift (Except Error) Logged := ⟨ofExcept⟩

def tell (record : Record) : Logged Unit := ⟨[record], .ok ()⟩

def fail {α : Type} (e : Error) : Logged α := ⟨[], .error e⟩

@[simp] theorem outcome_pure {α : Type} (a : α) : (pure a : Logged α).outcome = .ok a := rfl

@[simp] theorem records_pure {α : Type} (a : α) : (pure a : Logged α).records = [] := rfl

@[simp] theorem outcome_bind {α β : Type} (x : Logged α) (f : α → Logged β) :
    (x >>= f).outcome = x.outcome >>= fun a => (f a).outcome := by
  change (andThen x f).outcome = _
  unfold andThen
  cases x.outcome <;> rfl

@[simp] theorem records_bind {α β : Type} (x : Logged α) (f : α → Logged β) :
    (x >>= f).records = x.records ++
      match x.outcome with
      | .ok a => (f a).records
      | .error _ => [] := by
  change (andThen x f).records = _
  unfold andThen
  cases x.outcome <;> simp

theorem bind_pure_self {α : Type} (x : Logged α) : (x >>= fun a => pure a) = x := by
  change andThen x (fun a => ⟨[], .ok a⟩) = x
  obtain ⟨records, outcome⟩ := x
  cases outcome <;> simp [andThen]

theorem bind_of_pure {α β : Type} (a : α) (f : α → Logged β) : (pure a >>= f) = f a := by
  change andThen ⟨[], .ok a⟩ f = f a
  simp [andThen]

/-- What is told does not depend on how a sequence of computations is split. -/
theorem bind_bind {α β γ : Type} (x : Logged α) (f : α → Logged β) (g : β → Logged γ) :
    (x >>= f >>= g) = x >>= fun a => f a >>= g := by
  change andThen (andThen x f) g = andThen x fun a => andThen (f a) g
  obtain ⟨records, outcome⟩ := x
  cases outcome with
  | error e => rfl
  | ok a =>
    cases h : (f a).outcome <;> simp [andThen, h]

instance : LawfulMonad Logged := LawfulMonad.mk' Logged bind_pure_self bind_of_pure bind_bind

@[simp] theorem outcome_tell (record : Record) : (tell record).outcome = .ok () := rfl

@[simp] theorem outcome_fail {α : Type} (e : Error) : (fail e : Logged α).outcome = .error e := rfl

end Logged
end TimingDiagram
