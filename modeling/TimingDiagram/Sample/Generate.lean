import TimingDiagram.Error
import TimingDiagram.Room
import TimingDiagram.Sample.Twister

/-! Sample waves and documents, drawn at random. The same arguments and the same seed
give the same sample. What is drawn comes from a source of randomness, of which nothing
is assumed here. -/
namespace TimingDiagram

/-- A source of randomness with states `σ`. -/
structure Draws (σ : Type) where
  /-- The state that starts from a seed. -/
  ofSeed : Nat → σ
  /-- A number below a bound. -/
  below : Nat → σ → Nat × σ
  /-- A fraction from zero up to one. -/
  fraction : σ → Float × σ
  /-- Two different numbers below a bound. -/
  pair : Nat → σ → (Nat × Nat) × σ

namespace Sample

/-- The generator as a source of randomness. -/
def twisterDraws : Draws Twister :=
  ⟨Twister.ofSeed, Twister.below, Twister.fraction, Twister.pair⟩

/-- The symbols that a wave may start with. -/
def openingSymbols : List Char := "01hlHLzx=23456789".toList

/-- The symbols that a wave may go on with; a repeat is twice as likely as a gap. -/
def waveSymbols : List Char := openingSymbols ++ ['.', '.', '|']

variable {σ : Type} (d : Draws σ)

def symbolOf (symbols : List Char) (s : σ) : Char × σ :=
  let (i, s) := d.below symbols.length s
  (symbols.getD i '.', s)

/-- The symbols of a wave after the first: a repeat as often as `bias` says. -/
def symbolsFrom (bias : Number) : Nat → σ → List Char × σ
  | 0, s => ([], s)
  | n + 1, s =>
    let (x, s) := d.fraction s
    let (c, s) := if Number.order (.real x) bias = some .lt then ('.', s)
      else symbolOf d waveSymbols s
    let (rest, s) := symbolsFrom bias n s
    (c :: rest, s)

/-- A wave of so many symbols, with the state after drawing it. -/
def waveFrom (cycles : Nat) (bias : Number) (s : σ) : List Char :=
  match cycles with
  | 0 => []
  | n + 1 =>
    let (first, s) := symbolOf d openingSymbols s
    first :: (symbolsFrom d bias n s).1

def largestSeed : Nat := Nat.pow 2 32 - 1

/-- The state of a seed that is in range. -/
def seeded (seed : Int) : Except Fault σ :=
  if seed < 0 || (largestSeed : Int) < seed then .error .badValue else .ok (d.ofSeed seed.toNat)

/-- A sample wave. Without cycles it is empty, whatever the seed. -/
def wave (cycles seed : Int) (bias : Number) : Except Fault String := do
  if cycles ≤ 0 then return ""
  else return String.ofList (waveFrom d cycles.toNat bias (← seeded d seed))

/-- A clock wave: one clock symbol and repeats. -/
def clock [Memory] (cycles : Int) (marked negative : Bool) : Except Fault String := do
  if cycles ≤ 0 then return ""
  else
    let symbol := match marked, negative with
      | false, false => 'p'
      | false, true => 'n'
      | true, false => 'P'
      | true, true => 'N'
    return String.ofList (symbol :: (← Room.repeated ['.'] (cycles - 1)))

/-- The number of data symbols of a wave. -/
def dataCount (wave : List Char) : Nat :=
  wave.countP fun c => c == '=' || ('2' ≤ c && c ≤ '9')

/-- The share of repeats in the waves of a document. -/
def documentBias : Number := .real 0.3

/-- The labels of a signal, if it has boxes. -/
def dataEntry (count : Nat) : List (String × Value) :=
  if count = 0 then []
  else [("data", .list ((List.range count).map fun j => .text ("D" ++ toString j)))]

/-- The anchors of a signal with one anchor at a cycle. -/
def nodeEntry (cycle : Nat) (name : String) : List (String × Value) :=
  [("node", .list (List.replicate cycle .null ++ [.text name]))]

/-- The `i`-th signal of a document. It has an anchor if `anchored`. -/
def signalFrom (cycles : Int) (anchored : Bool) (i : Nat) (s : σ) :
    Except Fault (Value × σ) := do
  let (seed, s) := d.below (Nat.pow 2 31 - 1) s
  let text ← wave d cycles seed documentBias
  let entries := [("name", Value.text ("s" ++ toString i)), ("wave", Value.text text)] ++
    dataEntry (dataCount text.toList)
  if anchored then
    if cycles ≤ 0 then throw .badValue
    else
      let (cycle, s) := d.below cycles.toNat s
      return (.mapping (entries ++ nodeEntry cycle ("n" ++ toString i)), s)
  else return (.mapping entries, s)

/-- Some signals of a document, from the `i`-th on. -/
def signalsFrom (cycles : Int) (anchored : Bool) : Nat → Nat → σ → Except Fault (List Value × σ)
  | 0, _, s => .ok ([], s)
  | n + 1, i, s => do
    let (first, s) ← signalFrom d cycles anchored i s
    let (rest, s) ← signalsFrom cycles anchored n (i + 1) s
    return (first :: rest, s)

/-- Some signals in groups of `size`, the first of which has the number `i`. -/
def grouped (size : Nat) (i : Nat) (signals : List Value) : List Value :=
  match signals with
  | [] => []
  | first :: rest =>
    let own := rest.take (size - 1)
    .list (.text ("g" ++ toString i) :: first :: own) :: grouped size (i + 1) (rest.drop (size - 1))
termination_by signals.length
decreasing_by simp only [List.length_drop, List.length_cons]; omega

/-- Some edges between different ones of `n` anchors. -/
def edgesFrom (n : Nat) : Nat → σ → List Value × σ
  | 0, s => ([], s)
  | count + 1, s =>
    let ((a, b), s) := d.pair n s
    let (rest, s) := edgesFrom n count s
    (.text ("n" ++ toString a ++ "~>n" ++ toString b) :: rest, s)

/-- A sample document: a clock, then random signals, in groups of `groupEvery` when it is
positive, with random edges between anchors of the signals. -/
def document [Memory] (signals cycles seed groupEvery edges : Int) : Except Fault Value := do
  let s ← seeded d seed
  let opening ← clock cycles false false
  let anchored := edges != 0 && cycles != 0
  let (body, s) ← signalsFrom d cycles anchored signals.toNat 0 s
  let first : Value := .mapping [("name", .text "clk"), ("wave", .text opening)]
  let items := if 0 < groupEvery then grouped groupEvery.toNat 0 body else body
  let declared : List (String × Value) := [("signal", .list (first :: items))]
  if anchored && 2 ≤ signals then
    return .mapping (declared ++ [("edge", .list (edgesFrom d signals.toNat edges.toNat s).1)])
  else return .mapping declared

end Sample
end TimingDiagram
