import TimingDiagram.Log.Record
import TimingDiagram.Number.Scalar
import TimingDiagram.Text.Blank
import TimingDiagram.Wave.Lexer
import TimingDiagram.Wave.Resolve

/-! Signals as a document declares them, and their compilation into segments. -/
namespace TimingDiagram

/-- A signal as it is declared. -/
structure Signal (K : Type) where
  name : String
  wave : String
  /-- The labels of the boxes. -/
  data : List String := []
  node : NodeSpec := .absent
  /-- The cycles that one symbol takes. -/
  period : Nat := 1
  phase : K
  /-- The declared number of cycles. -/
  cycles : Option Nat := none

/-- A signal with its tokens and segments. -/
structure Compiled (K : Type) where
  signal : Signal K
  tokens : List Token
  segments : List Segment
  /-- The cycles that the signal takes. -/
  length : Nat

namespace Signal

variable {K : Type}

/-- The cycles of a signal of so many tokens. -/
def length (s : Signal K) (tokens : Nat) : Nat := s.cycles.getD (tokens * s.period)

def lexerSource : String := "wavelane.wave.lexer"

def resolverSource : String := "wavelane.wave.segments"

/-- The tokens of a signal, told with their number. -/
def lexed (s : Signal K) : Logged (List Token) := do
  let tokens ← (lex s.wave s.node s.name none : Except Error (List Token))
  Logged.tell ⟨.debug, lexerSource,
    "lexed " ++ toString tokens.length ++ " tokens for signal " ++ Text.quote s.name⟩
  return tokens

/-- The segments of a signal with given tokens, told with their number. -/
def resolved (s : Signal K) (tokens : List Token) : Logged (List Segment) := do
  let segments ← (Segment.resolve tokens s.period s.data (some (s.length tokens.length)) s.name :
    Except Error (List Segment))
  Logged.tell ⟨.debug, resolverSource,
    "resolved " ++ toString tokens.length ++ " tokens into " ++ toString segments.length ++
      " segments"⟩
  return segments

/-- The compiled form of a signal. -/
def compile (s : Signal K) : Logged (Compiled K) := do
  let tokens ← s.lexed
  let segments ← s.resolved tokens
  return ⟨s, tokens, segments, s.length tokens.length⟩

def keys : List String := ["name", "wave", "data", "node", "period", "phase", "cycles"]

def source : String := "wavelane.figure.document"

def unknownKeys (entries : List (String × Value)) : List Record :=
  (entries.filter fun entry => !keys.contains entry.1).map fun entry =>
    ⟨.debug, source, "ignoring unknown signal key " ++ Text.quote entry.1⟩

/-- The labels that an entry gives: the words of a text, or the items of a list, which
are texts or numbers. -/
def dataOf (value : Value) : Except Defect (List String) :=
  match value with
  | .text s => .ok (Text.words s)
  | .list items =>
    items.mapM fun
      | .text s => .ok s
      | .number n => .ok n.text
      | _ => .error .dataEntries
  | _ => .error .dataKind

def nodeOf (value : Value) : Except Defect NodeSpec :=
  match value with
  | .null => .ok .absent
  | .text s => .ok (.letters s)
  | .list items => do
    let names ← items.mapM fun
      | .null => .ok none
      | .text s => .ok (some s)
      | _ => .error .nodeEntries
    return .names names
  | _ => .error .nodeKind

def cyclesOf (value : Value) : Except Defect (Option Nat) :=
  match value with
  | .null => .ok none
  | .number (.whole n) => if n < 0 then .error (.cyclesValue value) else .ok (some n.toNat)
  | _ => .error (.cyclesValue value)

def waveOf (value : Value) : Except Defect String :=
  match value with
  | .null => .ok ""
  | .text s => .ok s
  | _ => .error .waveKind

def periodOf (value : Value) : Except Defect Nat :=
  match value with
  | .number (.whole n) => if n < 1 then .error (.periodValue value) else .ok n.toNat
  | _ => .error (.periodValue value)

def phaseOf (value : Value) : Except Defect Number :=
  match value with
  | .number n => .ok n
  | _ => .error (.phaseKind value)

/-- The signal that the entries of a mapping declare, checked in a fixed order. -/
def declared [Scalar K] (entries : List (String × Value)) : Except Error (Signal K) := do
  let entry (key : String) (default : Value) := Value.lookupD key entries default
  let name ← match entry "name" (.text "") with
    | .text s => pure s
    | value => throw (.malformed (.signalName value) {})
  let located {α : Type} (x : Except Defect α) : Except Error α :=
    x.mapError fun d => .malformed d ⟨name, none⟩
  if (entry "wave" .null).isNull && (entry "cycles" .null).isNull then
    throw (.malformed .noWave ⟨name, none⟩)
  let wave ← located (waveOf (entry "wave" .null))
  let cycles ← located (cyclesOf (entry "cycles" .null))
  let data ← located (dataOf (entry "data" (.list [])))
  let node ← located (nodeOf (entry "node" .null))
  let period ← located (periodOf (entry "period" (.number (.whole 1))))
  let phase ← located (phaseOf (entry "phase" (.number (.real 0.0))))
  let phase ← phase.toFloat
  return ⟨name, wave, data, node, period, Scalar.ofNumber (.real phase), cycles⟩

/-- The signal of a mapping; keys without a meaning are told first. -/
def ofEntries [Scalar K] (entries : List (String × Value)) : Logged (Signal K) :=
  ⟨unknownKeys entries, declared entries⟩

end Signal
end TimingDiagram
