import TimingDiagram.Error

/-! Anchors: the named points of a figure, in the order they were declared, each name
once. -/
namespace TimingDiagram

/-- A point of the figure plane. -/
structure Point (K : Type) where
  x : K
  y : K

namespace Point

variable {K : Type}

/-- Two points agree when their coordinates do. -/
instance [BEq K] : BEq (Point K) := ⟨fun p q => p.x == q.x && p.y == q.y⟩

end Point

/-- A named point on a waveform. -/
structure Anchor (K : Type) where
  name : String
  signal : String
  slot : Int
  cycle : Int
  x : K
  y : K

namespace Anchor

variable {K : Type}

def point (a : Anchor K) : Point K := ⟨a.x, a.y⟩

end Anchor

/-- Anchors with distinct names. -/
structure Registry (K : Type) where
  anchors : List (Anchor K)
  nodup : (anchors.map Anchor.name).Nodup

namespace Registry

variable {K : Type}

def empty : Registry K := ⟨[], List.nodup_nil⟩

def find? (r : Registry K) (name : String) : Option (Anchor K) :=
  r.anchors.find? fun a => a.name == name

def names (r : Registry K) : List String := r.anchors.map Anchor.name

theorem find?_eq_none_iff {r : Registry K} {name : String} :
    r.find? name = none ↔ name ∉ r.names := by
  simp only [find?, names, List.find?_eq_none, List.mem_map, not_exists, not_and, beq_iff_eq]

/-- The registry with one more anchor; a name that is taken is an error. -/
def insert (r : Registry K) (a : Anchor K) : Except Error (Registry K) :=
  match h : r.find? a.name with
  | some first =>
    .error (.malformed (.anchorTaken a.name first.signal) ⟨a.signal, some a.cycle⟩)
  | none =>
    .ok ⟨r.anchors ++ [a], by
      have hn := find?_eq_none_iff.mp h
      simp only [List.map_append, List.map_cons, List.map_nil]
      refine List.nodup_append.mpr ⟨r.nodup, by simp, ?_⟩
      intro x hx y hy
      simp only [List.mem_singleton] at hy
      subst hy
      intro he
      subst he
      exact hn hx⟩

theorem insert_of_known {r : Registry K} {a first : Anchor K} (h : r.find? a.name = some first) :
    r.insert a =
      .error (.malformed (.anchorTaken a.name first.signal) ⟨a.signal, some a.cycle⟩) := by
  unfold insert
  split
  · rename_i known hk
    rw [h] at hk
    cases hk
    rfl
  · rename_i hk
    rw [h] at hk
    cases hk

theorem insert_of_fresh {r : Registry K} {a : Anchor K} (h : a.name ∉ r.names) :
    ∃ r', r.insert a = .ok r' ∧ r'.anchors = r.anchors ++ [a] := by
  have hn := find?_eq_none_iff.mpr h
  unfold insert
  split
  · rename_i first hk
    rw [hn] at hk
    cases hk
  · exact ⟨_, rfl, rfl⟩

/-- The registry of some anchors, in order. -/
def ofList (anchors : List (Anchor K)) : Except Error (Registry K) :=
  anchors.foldlM insert empty

/-- The anchor of a name that an edge refers to. -/
def lookup (r : Registry K) (name edge : String) : Except UnknownAnchor (Anchor K) :=
  match r.find? name with
  | some a => .ok a
  | none => .error ⟨name, edge⟩

end Registry
end TimingDiagram
