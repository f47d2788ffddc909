import TimingDiagram.Number.Scalar

/-! Levels of a signal and the meanings of the symbols of a wave. -/
namespace TimingDiagram

/-- The level of a signal, from bottom to top. -/
inductive Level where
  | low
  | middle
  | high
  deriving DecidableEq, Repr

namespace Level

/-- Levels are ordered bottom to top. -/
def rank : Level → Nat
  | low => 0
  | middle => 1
  | high => 2

def ofRank? : Nat → Option Level
  | 0 => some low
  | 1 => some middle
  | 2 => some high
  | _ => none

theorem ofRank?_rank (level : Level) : ofRank? level.rank = some level := by
  cases level <;> rfl

/-- The position within a lane: zero is its top, one its bottom. -/
def depth {K : Type} [Scalar K] : Level → K
  | high => Scalar.fraction 0 1
  | middle => Scalar.fraction 1 2
  | low => Scalar.fraction 1 1

end Level

/-- What one symbol of a wave means. -/
inductive Tag where
  | low
  | high
  | lowSharp
  | highSharp
  | lowMarked
  | highMarked
  | highZ
  | dontCare
  | data
  | clockPos
  | clockNeg
  | clockPosMarked
  | clockNegMarked
  /-- The state before goes on. -/
  | again
  /-- The state before goes on, and a break is drawn. -/
  | gap
  deriving DecidableEq, Repr

namespace Tag

def all : List Tag :=
  [low, high, lowSharp, highSharp, lowMarked, highMarked, highZ, dontCare, data, clockPos,
    clockNeg, clockPosMarked, clockNegMarked, again, gap]

def name : Tag → String
  | low => "low"
  | high => "high"
  | lowSharp => "low_sharp"
  | highSharp => "high_sharp"
  | lowMarked => "low_marked"
  | highMarked => "high_marked"
  | highZ => "high_z"
  | dontCare => "dont_care"
  | data => "data"
  | clockPos => "clock_pos"
  | clockNeg => "clock_neg"
  | clockPosMarked => "clock_pos_marked"
  | clockNegMarked => "clock_neg_marked"
  | again => "repeat"
  | gap => "gap"

def ofName? (s : String) : Option Tag := all.find? fun tag => tag.name == s

theorem ofName?_name (tag : Tag) : ofName? tag.name = some tag := by
  cases tag <;> decide

def ofSymbol? (c : Char) : Option Tag :=
  match c with
  | '0' => some low
  | '1' => some high
  | 'l' => some lowSharp
  | 'h' => some highSharp
  | 'L' => some lowMarked
  | 'H' => some highMarked
  | 'z' => some highZ
  | 'x' => some dontCare
  | '=' => some data
  | 'p' => some clockPos
  | 'n' => some clockNeg
  | 'P' => some clockPosMarked
  | 'N' => some clockNegMarked
  | '.' => some again
  | '|' => some gap
  | c => if '2' ≤ c && c ≤ '9' then some data else none

/-- The steady level of a level tag. -/
def level? : Tag → Option Level
  | low | lowSharp | lowMarked => some .low
  | high | highSharp | highMarked => some .high
  | highZ => some .middle
  | _ => none

def isClock : Tag → Bool
  | clockPos | clockNeg | clockPosMarked | clockNegMarked => true
  | _ => false

def isBox : Tag → Bool
  | data | dontCare => true
  | _ => false

/-- Tags that continue the state before them. -/
def isContinuation : Tag → Bool
  | again | gap => true
  | _ => false

def isSharp : Tag → Bool
  | lowSharp | highSharp | lowMarked | highMarked => true
  | tag => tag.isClock

/-- Tags whose edges carry an arrow. -/
def isMarked : Tag → Bool
  | lowMarked | highMarked | clockPosMarked | clockNegMarked => true
  | _ => false

/-- Clocks that open each period with a rising edge. -/
def isRising : Tag → Bool
  | clockPos | clockPosMarked => true
  | _ => false

/-- The level right after the start of a period. -/
def entry? : Tag → Option Level
  | clockPos | clockPosMarked => some .high
  | clockNeg | clockNegMarked => some .low
  | tag => tag.level?

/-- The level at the end of a period. -/
def exit? : Tag → Option Level
  | clockPos | clockPosMarked => some .low
  | clockNeg | clockNegMarked => some .high
  | tag => tag.level?

end Tag
end TimingDiagram
