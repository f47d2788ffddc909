/-! Causes that lie in a computation and not in the document it works on. -/
namespace TimingDiagram

/-- Why a computation has no result. -/
inductive Fault where
  /-- An operand is of a kind that the operation does not take. -/
  | wrongKind
  /-- An operand is of the right kind and outside the domain of the operation. -/
  | badValue
  | divisionByZero
  /-- A whole number is too large to be held as a binary fraction. -/
  | tooLarge
  /-- A position lies outside a list. -/
  | outOfRange
  /-- There is no room for a result. -/
  | noRoom
  /-- A point in time is so far away that no calendar reaches it. -/
  | outOfCalendar
  deriving DecidableEq, Repr

end TimingDiagram
