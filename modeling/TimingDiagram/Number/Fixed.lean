import TimingDiagram.Number.Binary

/-! Numerals with a fixed number of decimal places, rounded from the exact value,
and their compact form without superfluous zeros. -/
namespace TimingDiagram.Fixed

/-- The digits of `n / 10 ^ places` with all their places. -/
def unsigned (places n : Nat) : List Char :=
  let whole := digitsOf (n / Nat.pow 10 places)
  if places = 0 then whole else whole ++ '.' :: paddedDigits places (n % Nat.pow 10 places)

/-- `± num / den` rounded to `places` decimals, a half going to the even neighbour. -/
def ofRatio (places : Nat) (negative : Bool) (num den : Nat) : List Char :=
  let body := unsigned places (roundDiv (num * Nat.pow 10 places) den)
  if negative then '-' :: body else body

/-- A text without the characters `c` at its end. -/
def dropTrailing (c : Char) (cs : List Char) : List Char :=
  (cs.reverse.dropWhile (· == c)).reverse

/-- A numeral without zeros at the end of its fraction, and zero without a sign. -/
def compact (cs : List Char) : List Char :=
  let bare := dropTrailing '.' (dropTrailing '0' cs)
  if bare = ['-', '0'] then ['0'] else bare

/-- A double with the given number of decimals. -/
def ofFloat (places : Nat) (x : Float) : List Char :=
  match Binary.read x with
  | .notANumber => ['n', 'a', 'n']
  | .infinite true => ['-', 'i', 'n', 'f']
  | .infinite false => ['i', 'n', 'f']
  | .finite d => ofRatio places d.negative d.num d.den

end TimingDiagram.Fixed
