import TimingDiagram.Number.Basic
import TimingDiagram.Text.Blank

/-! Numerals: the decimal notation of numbers. The parts are a sign, the digits before
and after a point, and an exponent. -/
namespace TimingDiagram.Numeral

/-- The value of a run of decimal digits. -/
def digitsValue (cs : List Char) : Nat :=
  cs.foldl (fun n c => 10 * n + (c.toNat - 48)) 0

def sign : List Char → Bool × List Char
  | '-' :: rest => (true, rest)
  | '+' :: rest => (false, rest)
  | cs => (false, cs)

def digits (cs : List Char) : List Char × List Char :=
  (cs.takeWhile Char.isDigit, cs.dropWhile Char.isDigit)

def fractionDigits : List Char → List Char × List Char
  | '.' :: rest => digits rest
  | cs => ([], cs)

def exponentPart (cs : List Char) : Option Int × List Char :=
  match cs with
  | c :: rest =>
    if c = 'e' || c = 'E' then
      let (negative, rest) := sign rest
      let (own, rest) := digits rest
      if own.isEmpty then (none, cs)
      else
        let n : Int := digitsValue own
        (some (if negative then -n else n), rest)
    else (none, cs)
  | [] => (none, [])

/-- The fraction that a run of digits, the last `part` of which stand after the point,
makes with an exponent. -/
def fraction (negative : Bool) (own part : List Char) (exponent : Option Int) : Float :=
  Binary.ofDecimal negative (digitsValue (own ++ part)) (exponent.getD 0 - part.length)

/-- The digits with the underscores between two of them left out; one at another place
is an error. -/
def withoutUnderscores? (afterDigit : Bool) : List Char → Option (List Char)
  | [] => some []
  | '_' :: rest =>
    if afterDigit && rest.head?.any Char.isDigit then withoutUnderscores? false rest else none
  | c :: rest => (withoutUnderscores? c.isDigit rest).map (c :: ·)

/-- The words for what has no digits. -/
def word? (negative : Bool) (cs : List Char) : Option Float :=
  let word := String.ofList (cs.map Char.toLower)
  if word = "inf" || word = "infinity" then some (if negative then -(1.0 / 0.0) else 1.0 / 0.0)
  else if word = "nan" then some (0.0 / 0.0)
  else none

/-- The fraction that a text stands for, if it is a numeral with nothing but blanks
around it. Digits may be missing on one side of the point. -/
def read? (s : String) : Option Float := do
  let cs ← withoutUnderscores? false (Text.trimBlanks s.toList)
  let (negative, cs) := sign cs
  let (own, rest) := digits cs
  let (part, rest) := fractionDigits rest
  if own.isEmpty && part.isEmpty then word? negative cs
  else
    let (exponent, rest) := exponentPart rest
    if rest.isEmpty then some (fraction negative own part exponent) else none

end TimingDiagram.Numeral
