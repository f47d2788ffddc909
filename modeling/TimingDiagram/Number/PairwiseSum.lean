import TimingDiagram.Number.Scalar

/-! Sums with little rounding: long lists are halved, and blocks are summed in eight
interleaved parts. Over exact numbers this is the sum. -/
namespace TimingDiagram
namespace PairwiseSum

variable {K : Type} [Add K] [Scalar K]

/-- Adds the following eights of some numbers to eight partial sums, and gives what is
left over. -/
def addEights (parts : List K) (xs : List K) : List K × List K :=
  if 8 ≤ xs.length then addEights (List.zipWith (· + ·) parts (xs.take 8)) (xs.drop 8)
  else (parts, xs)
termination_by xs.length
decreasing_by simp only [List.length_drop]; omega

/-- Eight partial sums, added in pairs. -/
def joinParts : List K → K
  | [a, b, c, d, e, f, g, h] => ((a + b) + (c + d)) + ((e + f) + (g + h))
  | parts => parts.foldl (· + ·) Scalar.zero

/-- The sum of at least eight numbers in eight parts, then of what is left over. -/
def block (xs : List K) : K :=
  let (parts, rest) := addEights (xs.take 8) (xs.drop 8)
  rest.foldl (· + ·) (joinParts parts)

def blockSize : Nat := 128

/-- The place at which a list of `n` numbers is halved, a multiple of eight. -/
def half (n : Nat) : Nat := n / 2 - n / 2 % 8

def sum (xs : List K) : K :=
  if xs.length < 8 then xs.foldl (· + ·) Scalar.zero
  else if xs.length ≤ blockSize then block xs
  else sum (xs.take (half xs.length)) + sum (xs.drop (half xs.length))
termination_by xs.length
decreasing_by
  all_goals
    simp only [List.length_take, List.length_drop, half, blockSize] at *
    omega

end PairwiseSum
end TimingDiagram
