import TimingDiagram.Wave.Glyph
import TimingDiagram.Wave.NodeSpec
import TimingDiagram.Wave.Token

/-! Reading a wave: its glyphs become tokens one after another, each once the state
before it is known. -/
namespace TimingDiagram

namespace Token

/-- The box colour of a data symbol: its digit, and `2` for the sign without one. -/
def dataColor (symbol : Char) : Int :=
  if symbol.isDigit then symbol.toNat - 48 else 2

/-- The token of a glyph after a given token; a repeat needs one. -/
def ofGlyph? (before : Option Token) (index : Nat) (g : Glyph) (anchor : Option String) :
    Option Token :=
  let previous := before.map Token.resolved
  match g.tag with
  | .again => before.map fun t =>
    ⟨index, g.symbol, .again, t.resolved, previous, t.color, none, anchor⟩
  | .gap =>
    match before with
    | none => some ⟨index, g.symbol, .gap, .dontCare, none, 0, none, anchor⟩
    | some t => some ⟨index, g.symbol, .gap, t.resolved, previous, t.color, none, anchor⟩
  | tag =>
    some ⟨index, g.symbol, tag, tag, previous, if tag = .data then dataColor g.symbol else 0,
      g.label.map String.ofList, anchor⟩

/-- The tokens of some glyphs and their anchors, the state passing from each to the
next; a position where a repeat has nothing to repeat otherwise. -/
def sequence (before : Option Token) (index : Nat) :
    List (Glyph × Option String) → Except Nat (List Token)
  | [] => .ok []
  | (g, anchor) :: rest =>
    match ofGlyph? before index g anchor with
    | none => .error index
    | some t => (sequence (some t) (index + 1) rest).map (t :: ·)

end Token

/-- The tokens of a wave. `initial` is the token before it, if the wave goes on from
one. A bad symbol is reported before a misplaced anchor, and that before a repeat
with nothing to repeat. -/
def lex (wave : String) (node : NodeSpec) (signal : String) (initial : Option Token) :
    Except Error (List Token) := do
  match glyphs wave.toList with
  | .error (n, fault) =>
    throw (.invalidSymbol (toString fault.symbol) fault.reason ⟨signal, some n⟩)
  | .ok gs =>
    let anchors ← node.align gs.length signal
    match Token.sequence initial 0 (gs.zip anchors) with
    | .error i => throw (.danglingRepeat ⟨signal, some i⟩)
    | .ok tokens => return tokens

end TimingDiagram
