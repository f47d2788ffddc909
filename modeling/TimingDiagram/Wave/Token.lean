import TimingDiagram.Wave.Tag

/-! Tokens of a wave: its symbols with the state each of them stands for. -/
namespace TimingDiagram

/-- The direction of the edge at the start of a token. -/
inductive Transition where
  | steady
  | rising
  | falling
  deriving DecidableEq, Repr

def Transition.name : Transition → String
  | steady => "none"
  | rising => "rising"
  | falling => "falling"

/-- One symbol of a wave in its context. -/
structure Token where
  /-- The position among the symbols of the wave. -/
  index : Nat
  symbol : Char
  /-- What the symbol means on its own. -/
  tag : Tag
  /-- What is drawn: a continuation takes the state it continues. -/
  resolved : Tag
  /-- What the token before it drew. -/
  previous : Option Tag := none
  /-- The box colour, zero where there is no box. -/
  color : Int := 0
  /-- The label written after the symbol. -/
  text : Option String := none
  anchor : Option String := none
  deriving DecidableEq, Repr

namespace Token

/-- The edge between the level before a token and its own; a continuation has none. -/
def edge (t : Token) : Transition :=
  if t.tag.isContinuation then .steady
  else
    match t.previous.bind Tag.exit?, t.resolved.entry? with
    | some before, some after =>
      if before = after then .steady
      else if before.rank < after.rank then .rising else .falling
    | _, _ => .steady

end Token
end TimingDiagram
