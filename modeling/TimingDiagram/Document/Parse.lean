import TimingDiagram.Document.Basic

/-! Reading a document. Its parts are checked in a fixed order: items, edges, options,
head, foot; the first defect is the answer. Nested groups are built on a list of open
groups, so that reading needs no room for the nesting. -/
namespace TimingDiagram

/-- A group around the one that is being read. -/
structure OpenGroup (K : Type) where
  label : Option String
  /-- The members read so far, the last one first. -/
  members : List (Item (Signal K))
  rest : List Value

/-- A bound on the steps that reading the rest of some open groups takes. -/
def OpenGroup.weight {K : Type} : List (OpenGroup K) → Nat
  | [] => 0
  | g :: outer => 1 + Value.sizeItems g.rest + weight outer

namespace Document

variable {K : Type} [Scalar K]

def defect (d : Defect) : Error := .malformed d {}

/-- The label and the members of a group; only its first entry may be a text. -/
def splitGroup (raw : List Value) : Except Error (Option String × List Value) :=
  let (label, rest) := match raw with
    | .text s :: rest => (some s, rest)
    | rest => (none, rest)
  match rest.findSome? (fun | .text s => some s | _ => none) with
  | some second => .error (defect (.secondLabel label second))
  | none => .ok (label, rest)

theorem sizeItems_splitGroup {raw : List Value} {label : Option String} {rest : List Value}
    (h : splitGroup raw = .ok (label, rest)) : Value.sizeItems rest ≤ Value.sizeItems raw := by
  unfold splitGroup at h
  cases raw with
  | nil =>
    simp only [List.findSome?_nil, Except.ok.injEq, Prod.mk.injEq] at h
    obtain ⟨_, rfl⟩ := h
    exact Nat.le_refl _
  | cons v vs =>
    cases v <;> simp only at h <;> split at h <;> cases h <;>
      simp only [Value.sizeItems] <;> omega

/-- Reads the entries that are left of the innermost open group, then of those around
it. `members` are the members of that group so far, the last one first. -/
def readItems (label : Option String) (members : List (Item (Signal K))) (rest : List Value)
    (outer : List (OpenGroup K)) : Logged (List (Item (Signal K))) :=
  match rest, outer with
  | [], [] => pure members.reverse
  | [], parent :: outer =>
    readItems parent.label (.group label members.reverse :: parent.members) parent.rest outer
  | .mapping [] :: rest, outer => readItems label (.spacer :: members) rest outer
  | .mapping entries :: rest, outer => do
    let s ← Signal.ofEntries entries
    readItems label (.signal s :: members) rest outer
  | .list raw :: rest, outer =>
    match h : splitGroup raw with
    | .error e => Logged.fail e
    | .ok (inner, entries) =>
      have := sizeItems_splitGroup h
      readItems inner [] entries (⟨label, members, rest⟩ :: outer)
  | value :: _, _ => Logged.fail (defect (.strayItem value))
termination_by Value.sizeItems rest + OpenGroup.weight outer
decreasing_by
  all_goals simp only [OpenGroup.weight, Value.sizeItems, Value.size]
  all_goals omega

def parseItems (raw : Value) : Logged (List (Item (Signal K))) :=
  match raw with
  | .list items => readItems none [] items []
  | _ => Logged.fail (defect .signalListKind)

def captionKeys : List String := ["text", "tick", "tock", "every"]

/-- What is told of the keys of a head or foot that have no meaning. -/
def unknownCaptionKeys (part : String) (entries : List (String × Value)) : List Record :=
  (entries.filter fun entry => !captionKeys.contains entry.1).map fun entry =>
    ⟨.debug, Signal.source, "ignoring unknown " ++ part ++ " key " ++ Text.quote entry.1⟩

/-- The first number of a row of numbers. -/
def startOf (part key : String) (value : Value) : Except Error (Option Int) :=
  match value with
  | .null => .ok none
  | .number (.whole n) => .ok (some n)
  | _ => .error (defect (.captionStart part key))

/-- The caption that the entries of a mapping declare. -/
def declaredCaption (part : String) (entries : List (String × Value)) :
    Except Error Caption := do
  let text ← match Value.lookupD "text" entries .null with
    | .null => pure none
    | .text s => pure (some s)
    | _ => throw (defect (.captionText part))
  let tick ← startOf part "tick" (Value.lookupD "tick" entries .null)
  let tock ← startOf part "tock" (Value.lookupD "tock" entries .null)
  let every ← match Value.lookupD "every" entries (.number (.whole 1)) with
    | .number (.whole n) =>
      if n < 1 then throw (defect (.captionEvery part)) else pure n.toNat
    | _ => throw (defect (.captionEvery part))
  return ⟨text, tick, tock, every⟩

def parseCaption (part : String) (raw : Value) : Logged (Option Caption) :=
  match raw with
  | .null => pure none
  | .mapping entries =>
    ⟨unknownCaptionKeys part entries, (declaredCaption part entries).map some⟩
  | _ => Logged.fail (defect (.captionKind part))

def parseEdges (raw : Value) : Except Error (List EdgeSpec) :=
  match raw with
  | .list entries => entries.mapM EdgeSpec.ofValue
  | _ => .error (defect .edgeListKind)

variable [Add K] [Sub K] [Mul K] [Div K] [LT K] [LE K] [DecidableLT K] [DecidableLE K]
  [Max K] [Min K]

/-- The document that a value describes, its `config` merged over some base options. -/
def parse (raw : Value) (base : Options K) : Logged (Document K) :=
  match raw with
  | .mapping entries =>
    match Value.lookup "signal" entries with
    | none => Logged.fail (defect .noSignalList)
    | some signal => do
      let entry (key : String) (default : Value) := Value.lookupD key entries default
      let items ← parseItems signal
      let edges ← (parseEdges (entry "edge" (.list [])) : Except Error (List EdgeSpec))
      let options ← Options.ofConfig (entry "config" .null) base
      let head ← parseCaption "head" (entry "head" .null)
      let foot ← parseCaption "foot" (entry "foot" .null)
      return ⟨items, edges, options, head, foot⟩
  | value => Logged.fail (defect (.documentKind value.kindName))

end Document
end TimingDiagram
