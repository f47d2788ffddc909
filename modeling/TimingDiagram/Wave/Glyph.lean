import TimingDiagram.Wave.Tag

/-! Glyphs: the units that a wave is written in. A glyph is a symbol, or a data symbol
with a label in brackets. -/
namespace TimingDiagram

/-- A symbol with the label written after it. -/
structure Glyph where
  symbol : Char
  tag : Tag
  label : Option (List Char) := none
  deriving DecidableEq, Repr

/-- Why no glyph starts at a character. -/
inductive GlyphFault where
  | unknownSymbol (c : Char)
  | strayLabel
  | openLabel
  deriving DecidableEq, Repr

namespace GlyphFault

def symbol : GlyphFault → Char
  | unknownSymbol c => c
  | strayLabel | openLabel => '['

/-- The reason that is reported; an unknown symbol has no special one. -/
def reason : GlyphFault → String
  | unknownSymbol _ => ""
  | strayLabel => "Inline label without a data symbol"
  | openLabel => "Unterminated inline label"

end GlyphFault

/-- The label at the front of a text that opens with a bracket, and what follows the
closing bracket. -/
def labelBody (cs : List Char) : Option (List Char × List Char) :=
  match cs.dropWhile (· ≠ ']') with
  | [] => none
  | _ :: rest => some (cs.takeWhile (· ≠ ']'), rest)

namespace Glyph

/-- The glyph that starts with `c`, and what follows it. -/
def read (c : Char) (rest : List Char) : Except GlyphFault (Glyph × List Char) :=
  match Tag.ofSymbol? c with
  | none => .error (if c = '[' then .strayLabel else .unknownSymbol c)
  | some .data =>
    match rest with
    | '[' :: body =>
      match labelBody body with
      | some (label, rest) => .ok (⟨c, .data, some label⟩, rest)
      | none => .error .openLabel
    | _ => .ok (⟨c, .data, none⟩, rest)
  | some tag => .ok (⟨c, tag, none⟩, rest)

def write (g : Glyph) : List Char :=
  match g.label with
  | none => [g.symbol]
  | some label => g.symbol :: '[' :: label ++ [']']

end Glyph

theorem labelBody_length_lt {cs label rest : List Char}
    (h : labelBody cs = some (label, rest)) : rest.length < cs.length := by
  unfold labelBody at h
  have hle := (List.dropWhile_sublist (l := cs) (fun c => decide (c ≠ ']'))).length_le
  split at h
  · cases h
  · rename_i heq
    simp only [Option.some.injEq, Prod.mk.injEq] at h
    rw [heq] at hle
    simp only [List.length_cons] at hle
    obtain ⟨_, rfl⟩ := h
    omega

theorem Glyph.read_length_le {c : Char} {cs rest : List Char} {g : Glyph}
    (h : Glyph.read c cs = .ok (g, rest)) : rest.length ≤ cs.length := by
  unfold Glyph.read at h
  split at h
  · cases h
  · split at h
    · split at h
      · rename_i label rest' hl
        have := labelBody_length_lt hl
        cases h
        simp only [List.length_cons]
        omega
      · cases h
    · cases h
      exact Nat.le_refl _
  · cases h
    exact Nat.le_refl _

/-- The glyphs of a wave, or the first fault and the number of glyphs before it. -/
def glyphs (cs : List Char) : Except (Nat × GlyphFault) (List Glyph) :=
  match cs with
  | [] => .ok []
  | c :: rest =>
    match _h : Glyph.read c rest with
    | .error fault => .error (0, fault)
    | .ok (g, tail) =>
      match glyphs tail with
      | .ok gs => .ok (g :: gs)
      | .error (n, fault) => .error (n + 1, fault)
termination_by cs.length
decreasing_by
  have := Glyph.read_length_le ‹Glyph.read c rest = _›
  simp only [List.length_cons]
  omega

end TimingDiagram
