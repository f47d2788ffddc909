/-! A generator of pseudo-random words with 624 words of state. Each word of the next
state is a twist of three words of this one; outputs are tempered. Numbers below a bound
are drawn by masking words, and two of them together by shuffling all. -/
namespace TimingDiagram

/-- The state of the generator, and the number of words taken from it. -/
structure Twister where
  words : Array UInt32
  taken : Nat

namespace Twister

def size : Nat := 624

/-- The distance to the word that is mixed in. -/
def reach : Nat := 397

/-- The word after a given one in a fresh state. -/
def nextSeed (before : UInt32) (i : Nat) : UInt32 :=
  (before ^^^ (before >>> 30)) * 1812433253 + i.toUInt32

/-- The words of a fresh state. -/
def seedWords (seed : UInt32) : Array UInt32 :=
  (List.range (size - 1)).foldl
    (fun words i => words.push (nextSeed (words.getD i 0) (i + 1))) #[seed]

/-- The generator that starts from a seed. -/
def ofSeed (seed : Nat) : Twister := ⟨seedWords seed.toUInt32, size⟩

/-- The twist of a word: the high bit of one and the low bits of the next, halved, mixed
with a word further on. -/
def twistWord (a b c : UInt32) : UInt32 :=
  let mixed := (a &&& 0x80000000) ||| (b &&& 0x7FFFFFFF)
  c ^^^ (mixed >>> 1) ^^^ (if mixed &&& 1 = 1 then 0x9908B0DF else 0)

def twist (words : Array UInt32) : Array UInt32 :=
  (List.range size).foldl
    (fun words i => words.setIfInBounds i
      (twistWord (words.getD i 0) (words.getD ((i + 1) % size) 0)
        (words.getD ((i + reach) % size) 0)))
    words

def temper (word : UInt32) : UInt32 :=
  let y := word ^^^ (word >>> 11)
  let y := y ^^^ ((y <<< 7) &&& 0x9D2C5680)
  let y := y ^^^ ((y <<< 15) &&& 0xEFC60000)
  y ^^^ (y >>> 18)

def next (t : Twister) : UInt32 × Twister :=
  let t := if size ≤ t.taken then ⟨twist t.words, 0⟩ else t
  (temper (t.words.getD t.taken 0), { t with taken := t.taken + 1 })

/-- The least number of the form `2 ^ k - 1` that is not below `n`. -/
def maskFor (n : Nat) : Nat := if n = 0 then 0 else Nat.pow 2 (n.log2 + 1) - 1

/-- Draws masked words until one is not above `limit`, at most so many times. -/
def drawUpTo (limit mask : Nat) : Nat → Twister → Nat × Twister
  | 0, t => (0, t)
  | fuel + 1, t =>
    let (word, t) := t.next
    let n := word.toNat &&& mask
    if n ≤ limit then (n, t) else drawUpTo limit mask fuel t

/-- A number below `n`, all of them being alike; there is nothing to draw when `n` is
one. The bound on the draws is out of reach, since each one succeeds at least every
other time. -/
def below (n : Nat) (t : Twister) : Nat × Twister :=
  if n ≤ 1 then (0, t) else drawUpTo (n - 1) (maskFor (n - 1)) 100000 t

/-- A list with its entries shuffled from the last one down to the first. -/
def shuffle : Nat → Array Nat → Twister → Array Nat × Twister
  | 0, p, t => (p, t)
  | i + 1, p, t =>
    let (j, t) := below (i + 2) t
    let p := (p.setIfInBounds (i + 1) (p.getD j 0)).setIfInBounds j (p.getD (i + 1) 0)
    shuffle i p t

/-- Two different numbers below `n`, the first two of all of them when they are shuffled. -/
def pair (n : Nat) (t : Twister) : (Nat × Nat) × Twister :=
  let (p, t) := shuffle (n - 1) (Array.range n) t
  ((p.getD 0 0, p.getD 1 0), t)

/-- A fraction from zero up to one with 53 bits. -/
def fraction (t : Twister) : Float × Twister :=
  let (a, t) := t.next
  let (b, t) := t.next
  let high := (a >>> 5).toNat
  let low := (b >>> 6).toNat
  ((high.toUInt64.toFloat * 67108864.0 + low.toUInt64.toFloat) / 9007199254740992.0, t)

end Twister
end TimingDiagram
