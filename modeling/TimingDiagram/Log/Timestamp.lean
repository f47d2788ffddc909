import TimingDiagram.Number.Basic

/-! Points in time, in seconds since the start of 1970, as dates with microseconds. -/
namespace TimingDiagram

/-- A second of time and the microseconds after it. -/
structure Timestamp where
  seconds : Int
  micros : Nat
  deriving DecidableEq, Repr

namespace Timestamp

/-- The microseconds in a fraction of a second, a half going to the even neighbour. -/
def microsOf (fraction : Float) : Int :=
  match Binary.read (fraction * 1000000.0) with
  | .finite d =>
    let n : Int := roundDiv d.num d.den
    if d.negative then -n else n
  | _ => 0

/-- The seconds that a clock can count, in both directions. -/
def range : Int := Int.pow 2 63

/-- The point in time of a count of seconds. -/
def ofNumber (n : Number) : Except Fault Timestamp := do
  let whole ← n.truncate
  if whole < -range || range ≤ whole then throw .tooLarge
  match n with
  | .whole n => return ⟨n, 0⟩
  | .real x =>
    let micros := microsOf (x - Number.nearest whole)
    if micros < 0 then return ⟨whole - 1, (micros + 1000000).toNat⟩
    else if 1000000 ≤ micros then return ⟨whole + 1, (micros - 1000000).toNat⟩
    else return ⟨whole, micros.toNat⟩

/-- A date of the Gregorian calendar. -/
structure Date where
  year : Int
  month : Nat
  day : Nat
  deriving DecidableEq, Repr

/-- The date of a day counted from the start of 1970. Years are counted from March, so
that the leap day is the last one. -/
def dateOf (days : Int) : Date :=
  let shifted := days + 719468
  let era := shifted / 146097
  let dayOfEra := (shifted % 146097).toNat
  let yearOfEra := (dayOfEra - dayOfEra / 1460 + dayOfEra / 36524 - dayOfEra / 146096) / 365
  let dayOfYear := dayOfEra - (365 * yearOfEra + yearOfEra / 4 - yearOfEra / 100)
  let monthIndex := (5 * dayOfYear + 2) / 153
  let day := dayOfYear - (153 * monthIndex + 2) / 5 + 1
  let month := if monthIndex < 10 then monthIndex + 3 else monthIndex - 9
  ⟨era * 400 + yearOfEra + (if month ≤ 2 then 1 else 0), month, day⟩

def padded (width n : Nat) : String := String.ofList (paddedDigits width n)

/-- The years that a calendar can count from 1900, in both directions. -/
def calendarRange : Int := Int.pow 2 31

/-- Whether a calendar reaches a year. -/
def inCalendar (year : Int) : Bool :=
  -calendarRange ≤ year - 1900 && year - 1900 < calendarRange

/-- A moment as log lines give it. -/
structure Stamp where
  /-- Date and time with milliseconds. -/
  short : String
  /-- Date and time in full, in universal time. -/
  full : String
  deriving DecidableEq, Repr

def Date.text (date : Date) : String :=
  padded 4 date.year.toNat ++ "-" ++ padded 2 date.month ++ "-" ++ padded 2 date.day

/-- The text of a second of the day. -/
def clockText (second : Nat) : String :=
  padded 2 (second / 3600) ++ ":" ++ padded 2 (second / 60 % 60) ++ ":" ++ padded 2 (second % 60)

/-- The date and time in both forms. In full, microseconds stand only where there are
some. Years have four digits. -/
def stamp (t : Timestamp) : Except Fault Stamp :=
  let date := dateOf (t.seconds / 86400)
  let clock := clockText (t.seconds % 86400).toNat
  if !inCalendar date.year then .error .outOfCalendar
  else if date.year < 1 || 9999 < date.year then .error .badValue
  else
    let micros := if t.micros = 0 then "" else "." ++ padded 6 t.micros
    .ok {
      short := date.text ++ " " ++ clock ++ "," ++ padded 3 (t.micros / 1000)
      full := date.text ++ "T" ++ clock ++ micros ++ "+00:00" }

end Timestamp
end TimingDiagram
