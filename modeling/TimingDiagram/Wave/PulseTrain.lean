import TimingDiagram.Wave.Tag

/-! Pulse trains of clocks. A clock opens each period with the edge of its polarity
and turns at half the period; its phase shifts the train to the left. -/
namespace TimingDiagram

/-- A level that holds from an offset on. -/
structure Pulse (K : Type) where
  offset : K
  level : Level

namespace Pulse

variable {K : Type} [Add K] [Sub K] [Mul K] [Div K] [LT K] [DecidableLT K] [Scalar K]

def tolerance : K := Scalar.fraction 1 1000000000

/-- The number of half periods up to a position. -/
def halvesBefore (half position : K) : Except Fault Int :=
  Scalar.floor (position / half + tolerance)

/-- The level in a half period: the opening level in the even ones. -/
def levelIn (rising : Bool) (k : Int) : Level :=
  if (k % 2 == 0) == rising then .high else .low

/-- The turns from the `k`-th on that come before `limit`. -/
def turnsFrom (half phase limit : K) (rising : Bool) : Nat → Int → Except Fault (List (Pulse K))
  | 0, _ => .ok []
  | fuel + 1, k => do
    let t ← Scalar.checked (Scalar.whole k * half - phase)
    if t < limit then
      let j ← halvesBefore half (t + phase)
      let rest ← turnsFrom half phase limit rising fuel (k + 1)
      return ⟨t, levelIn rising j⟩ :: rest
    else return []

/-- A bound on the number of turns: the half periods in the train, and as many more as
rounding can put on one place when the phase is large. -/
def turnBound (cycles half phase : K) : Nat :=
  let size := if phase < Scalar.zero then Scalar.zero - phase else phase
  match Scalar.floor ((cycles + size * Scalar.fraction 1 (Nat.pow 2 50)) / half) with
  | .ok n => n.toNat + 4
  | .error _ => 4

/-- The pulse train over some cycles: the level at its start, then every turn. -/
def train (cycles period phase : K) (rising : Bool) : Except Fault (List (Pulse K)) := do
  let half := period / Scalar.fraction 2 1
  let first ← halvesBefore half phase
  let limit ← Scalar.checked (cycles - tolerance)
  let turns ← turnsFrom half phase limit rising (turnBound cycles half phase) (first + 1)
  return ⟨Scalar.zero, levelIn rising first⟩ :: turns

end Pulse
end TimingDiagram
