import TimingDiagram.Proofs.Edge.Reversal

/-! The course of an edge in exact arithmetic. It leads from one anchor to the other, its label lies
on it, and an arrowhead is seen from the nearest point of the path that is not its tip: control points
that coincide with the tip give it no direction. -/
namespace TimingDiagram

namespace Point

variable {K : Type}

instance [BEq K] [LawfulBEq K] : LawfulBEq (Point K) where
  eq_of_beq {p q} h := by
    obtain ⟨px, py⟩ := p
    obtain ⟨qx, qy⟩ := q
    simpa [BEq.beq] using h
  rfl := by simp [BEq.beq]

/-- A step along one of the axes, or no step. -/
def Aligned (p q : Point K) : Prop := p.x = q.x ∨ p.y = q.y

/-- Among the points of a path from its tip on, the first that differs from the tip; the tip itself
when there is none. -/
inductive FirstOther (tip : Point K) : List (Point K) → Point K → Prop
  | none : FirstOther tip [] tip
  | here {p : Point K} {rest : List (Point K)} (other : p ≠ tip) : FirstOther tip (p :: rest) p
  | later {p : Point K} {rest : List (Point K)} (others : FirstOther tip rest p) :
      FirstOther tip (tip :: rest) p

/-- Only on a path without extent is the tip seen from itself. -/
theorem FirstOther.eq_tip_iff {tip p : Point K} {points : List (Point K)}
    (h : FirstOther tip points p) : p = tip ↔ ∀ q ∈ points, q = tip := by
  induction h with
  | none => simp
  | here hOther => simp [hOther]
  | later _ ih => simp [ih]

variable [Field K]

/-- The point at some part of the way from one point to another. -/
def toward (p q : Point K) (part : K) : Point K :=
  ⟨p.x + part * (q.x - p.x), p.y + part * (q.y - p.y)⟩

@[simp] theorem toward_zero (p q : Point K) : p.toward q 0 = p := by simp [toward]

theorem toward_half [CharZero K] (p q : Point K) :
    p.toward q (1 / 2) = ⟨(p.x + q.x) / 2, (p.y + q.y) / 2⟩ := by
  simp only [toward, mk.injEq]
  constructor <;> ring

/-- The point of a cubic curve at a parameter, by dividing the sides of its control polygon again and
again in one proportion. -/
def bezier (a b c d : Point K) (t : K) : Point K :=
  ((a.toward b t).toward (b.toward c t) t).toward ((b.toward c t).toward (c.toward d t) t) t

/-- A point on one of the sides of a polyline. -/
inductive OnPolyline [LE K] (p : Point K) : List (Point K) → Prop
  | here {a b : Point K} {rest : List (Point K)} {part : K} (start : 0 ≤ part) (stop : part ≤ 1)
      (between : p = a.toward b part) : OnPolyline p (a :: b :: rest)
  | later {a : Point K} {rest : List (Point K)} (others : OnPolyline p rest) :
      OnPolyline p (a :: rest)

end Point

namespace EdgePath

section Reference

variable {K : Type} [BEq K] [LawfulBEq K]

/-- The points that agree with the tip are passed over. -/
theorem firstOther_reference (tip : Point K) (points : List (Point K)) :
    Point.FirstOther tip points (reference tip points) := by
  induction points with
  | nil => exact .none
  | cons p rest ih =>
      by_cases hSame : p = tip
      · subst hSame
        cases rest with
        | nil => exact .later .none
        | cons q rest => simpa [reference] using Point.FirstOther.later ih
      · cases rest with
        | nil => exact .here hSame
        | cons q rest => simpa [reference, hSame] using Point.FirstOther.here hSame

/-- An arrowhead is at the first point and is seen from the next one that differs. -/
theorem firstOther_startEnds {tip : Point K} {points : List (Point K)}
    (h : points.head? = some tip) (default : Point K) :
    ∃ p, startEnds points default = (tip, p) ∧ Point.FirstOther tip points p := by
  obtain ⟨rest, rfl⟩ := List.head?_eq_some_iff.mp h
  exact ⟨reference tip rest, rfl, .later (firstOther_reference tip rest)⟩

end Reference

variable {K : Type} [Field K] [LinearOrder K] [IsStrictOrderedRing K] [FloorRing K] [Scalar K]
  [ExactScalar K]

/-- What the path of an edge promises. -/
structure Joins (path : EdgePath K) : Prop where
  start : path.points.head? = some path.source.point
  stop : path.points.getLast? = some path.target.point
  /-- A bent edge has no slanting step. -/
  steps : path.spec.style.shape ∈ [.orthogonal, .horizontalVertical, .verticalHorizontal] →
    path.points.IsChain Point.Aligned
  label_line : path.spec.style.shape.isCurve = false → Point.OnPolyline path.labelAt path.points
  label_curve : path.spec.style.shape.isCurve = true →
    ∃ a b c d, path.points = [a, b, c, d] ∧ path.labelAt = Point.bezier a b c d (1 / 2)
  startHead : ∃ p, Point.FirstOther path.source.point path.points p ∧
    (p = path.source.point ↔ ∀ q ∈ path.points, q = path.source.point) ∧
    path.startAngle = Scalar.angle (path.source.y - p.y) (path.source.x - p.x)
  stopHead : ∃ p, Point.FirstOther path.target.point path.points.reverse p ∧
    (p = path.target.point ↔ ∀ q ∈ path.points, q = path.target.point) ∧
    path.stopAngle = Scalar.angle (path.target.y - p.y) (path.target.x - p.x)

omit [LinearOrder K] [IsStrictOrderedRing K] [FloorRing K] [ExactScalar K] in
theorem geometry_ends (shape : EdgeShape) (a b : Anchor K) :
    (geometry shape a b).1.head? = some a.point ∧
      (geometry shape a b).1.getLast? = some b.point := by
  cases shape with
  | orthogonal =>
      simp only [geometry]
      split_ifs <;> exact ⟨rfl, rfl⟩
  | _ => exact ⟨rfl, rfl⟩

theorem geometry_steps {shape : EdgeShape}
    (h : shape ∈ [.orthogonal, .horizontalVertical, .verticalHorizontal]) (a b : Anchor K) :
    (geometry shape a b).1.IsChain Point.Aligned := by
  simp only [List.mem_cons, List.not_mem_nil, or_false] at h
  rcases h with rfl | rfl | rfl
  · simp only [geometry]
    split_ifs <;> simp [Point.Aligned]
  · simp [geometry, Point.Aligned]
  · simp [geometry, Point.Aligned]

/-- The label of a polyline is half way along one of its sides or at a bend. -/
theorem geometry_label_line {shape : EdgeShape} (h : shape.isCurve = false) (a b : Anchor K) :
    Point.OnPolyline (geometry shape a b).2 (geometry shape a b).1 := by
  have hHalf {p q : Point K} {rest : List (Point K)} :
      Point.OnPolyline (p.toward q (1 / 2)) (p :: q :: rest) :=
    .here (by norm_num) (by norm_num) rfl
  have hBend {p q : Point K} {rest : List (Point K)} : Point.OnPolyline p (p :: q :: rest) :=
    .here le_rfl zero_le_one (Point.toward_zero p q).symm
  simp only [Point.toward_half] at hHalf
  cases shape with
  | straight =>
      simp only [geometry, Scalar.whole_eq, Int.cast_ofNat]
      exact hHalf (p := a.point) (q := b.point)
  | orthogonal =>
      simp only [geometry]
      split_ifs
      · apply Point.OnPolyline.later
        simpa using hHalf (p := ⟨a.x, (a.y + b.y) / 2⟩) (q := ⟨b.x, (a.y + b.y) / 2⟩)
      · apply Point.OnPolyline.later
        simpa using hHalf (p := ⟨(a.x + b.x) / 2, a.y⟩) (q := ⟨(a.x + b.x) / 2, b.y⟩)
  | horizontalVertical => exact .later hBend
  | verticalHorizontal => exact .later hBend
  | curved => cases h
  | curvedStart => cases h
  | curvedEnd => cases h

theorem cubicPoint_half (a b c d : Point K) :
    cubicPoint a b c d (Scalar.fraction 1 2) = Point.bezier a b c d (1 / 2) := by
  simp only [cubicPoint, cubic_half, Point.bezier, Point.toward, Point.mk.injEq]
  constructor <;> ring

theorem geometry_label_curve {shape : EdgeShape} (h : shape.isCurve = true) (a b : Anchor K) :
    ∃ p q r s, (geometry shape a b).1 = [p, q, r, s] ∧
      (geometry shape a b).2 = Point.bezier p q r s (1 / 2) := by
  cases shape with
  | curved => exact ⟨_, _, _, _, rfl, cubicPoint_half _ _ _ _⟩
  | curvedStart => exact ⟨_, _, _, _, rfl, cubicPoint_half _ _ _ _⟩
  | curvedEnd => exact ⟨_, _, _, _, rfl, cubicPoint_half _ _ _ _⟩
  | straight => cases h
  | orthogonal => cases h
  | horizontalVertical => cases h
  | verticalHorizontal => cases h

/-- Between any two anchors there is an edge of every shape, and its path joins them. -/
theorem between_joins (spec : EdgeSpec) (a b : Anchor K) :
    ∃ path, between spec a b = .ok path ∧ path.spec = spec ∧ path.source = a ∧ path.target = b ∧
      path.Joins := by
  obtain ⟨hStart, hStop⟩ := geometry_ends spec.style.shape a b
  refine ⟨⟨spec, a, b, (geometry spec.style.shape a b).1, (geometry spec.style.shape a b).2⟩,
    between_eq spec a b, rfl, rfl, rfl, hStart, hStop, fun h => geometry_steps h a b,
    fun h => geometry_label_line h a b, fun h => geometry_label_curve h a b, ?_, ?_⟩
  · obtain ⟨p, hEnds, hOther⟩ := firstOther_startEnds hStart a.point
    exact ⟨p, hOther, hOther.eq_tip_iff, by rw [startAngle, hEnds]; rfl⟩
  · obtain ⟨p, hEnds, hOther⟩ := firstOther_startEnds (List.head?_reverse.trans hStop) b.point
    exact ⟨p, hOther, by simpa using hOther.eq_tip_iff, by rw [stopAngle, stopEnds, hEnds]; rfl⟩

/-- A curve that arrives in a doubled control point: its last arrowhead is seen from the point before,
and its label is off the straight line between the anchors. -/
theorem between_joins_curve :
    let spec : EdgeSpec := { source := "a", target := "b", style := { shape := .curvedStart } }
    let a : Anchor ℝ := ⟨"a", "req", 0, 1, 100, 20⟩
    let b : Anchor ℝ := ⟨"b", "ack", 1, 3, 200, 60⟩
    ∃ path, between spec a b = .ok path ∧ path.Joins ∧
      path.points = [⟨100, 20⟩, ⟨170, 20⟩, ⟨200, 60⟩, ⟨200, 60⟩] ∧
      path.labelAt = ⟨705 / 4, 40⟩ ∧ path.stopAngle = Scalar.angle 40 30 := by
  intro spec a b
  obtain ⟨path, hPath, _, _, _, hJoins⟩ := between_joins spec a b
  refine ⟨path, hPath, hJoins, ?_⟩
  rw [between_eq] at hPath
  cases hPath
  simp only [geometry, curve, cubicPoint_half, spec]
  norm_num [Point.bezier, Point.toward, stopAngle, stopEnds, startEnds, reference, direction, BEq.beq]

end EdgePath
end TimingDiagram
