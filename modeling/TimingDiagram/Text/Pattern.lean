import TimingDiagram.Text.Blank

/-! Patterns: what a text has to look like, and which parts of it are kept. A text is matched by
backtracking. Every part of a pattern may have several ways to go on, which are tried in order,
and the first of them that the rest of the pattern can follow counts. -/
namespace TimingDiagram.Text

/-- A class of characters. -/
structure CharClass where
  /-- Whether the blanks are listed. -/
  blanks : Bool
  /-- The other characters that are listed. -/
  chars : List Char
  /-- Whether the class has just the characters that are not listed. -/
  negated : Bool

def CharClass.holds (k : CharClass) (c : Char) : Bool :=
  ((k.blanks && isBlank c) || k.chars.contains c) != k.negated

inductive Pattern where
  /-- The start of the text. -/
  | start
  /-- The end of the text, or where nothing but a line feed follows. -/
  | stop
  | empty
  | one (k : CharClass)
  /-- Some characters or none, first as many as there are if `greedy`, and first none otherwise. -/
  | many (greedy : Bool) (k : CharClass)
  | seq (p q : Pattern)
  | either (p q : Pattern)
  /-- A part that is kept under a number. -/
  | group (number : Nat) (p : Pattern)

/-- How far a match has come. -/
structure Progress where
  /-- The number of characters before it. -/
  read : Nat
  rest : List Char
  /-- The parts that are kept, the last one first. -/
  groups : List (Nat × List Char)

namespace Progress

def skip (s : Progress) (n : Nat) : Progress := { s with read := s.read + n, rest := s.rest.drop n }

/-- A later place, with the part from `s` on kept. -/
def keep (s : Progress) (number : Nat) (t : Progress) : Progress :=
  { t with groups := (number, s.rest.take (t.read - s.read)) :: t.groups }

def group? (s : Progress) (number : Nat) : Option (List Char) := s.groups.lookup number

end Progress

namespace Pattern

/-- The places that a pattern can lead to, in the order in which they are tried. -/
def run : Pattern → Progress → List Progress
  | start, s => if s.read = 0 then [s] else []
  | stop, s => if s.rest = [] ∨ s.rest = ['\n'] then [s] else []
  | empty, s => [s]
  | one k, s => if s.rest.head?.any k.holds then [s.skip 1] else []
  | many greedy k, s =>
    let places := (List.range ((s.rest.takeWhile k.holds).length + 1)).map s.skip
    if greedy then places.reverse else places
  | seq p q, s => (p.run s).flatMap q.run
  | either p q, s => p.run s ++ q.run s
  | group number p, s => (p.run s).map (s.keep number)

/-- Where the first match of a pattern ends that starts with a text. -/
def match? (p : Pattern) (text : String) : Option Progress := (p.run ⟨0, text.toList, []⟩).head?

def maybe (p : Pattern) : Pattern := either p empty

/-- Some characters of a class, as many as there are first. -/
def oneOrMore (k : CharClass) : Pattern := seq (one k) (many true k)

def word (cs : List Char) : Pattern :=
  cs.foldr (fun c p => seq (one ⟨false, [c], false⟩) p) empty

/-- One of some words, tried in order. -/
def oneOf (first : List Char) : List (List Char) → Pattern
  | [] => word first
  | second :: more => either (word first) (oneOf second more)

/-- One part after the other. -/
def all (ps : List Pattern) : Pattern := ps.foldr seq empty

end Pattern
end TimingDiagram.Text
