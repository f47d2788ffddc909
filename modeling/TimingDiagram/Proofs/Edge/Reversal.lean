import Mathlib.Tactic.Ring
import TimingDiagram.Proofs.Edge.Broken
import TimingDiagram.Proofs.Number.Exact

/-! Edges that are read from their other end, in exact arithmetic. The mirrored shape between the same
two anchors has the same points the other way round and its label at the same place, so that the two
arrowheads only change their ends. -/
namespace TimingDiagram

namespace EdgeShape

/-- The shape of an edge that is read from its other end. -/
def mirror : EdgeShape → EdgeShape
  | straight => straight
  | orthogonal => orthogonal
  | horizontalVertical => verticalHorizontal
  | verticalHorizontal => horizontalVertical
  | curved => curved
  | curvedStart => curvedEnd
  | curvedEnd => curvedStart

end EdgeShape

namespace EdgePath

variable {K : Type} [Field K] [LinearOrder K] [IsStrictOrderedRing K] [FloorRing K] [Scalar K]
  [ExactScalar K]

/-- A cubic curve has its middle where its inner control points count three times. -/
theorem cubic_half (a b c d : K) :
    cubic a b c d (Scalar.fraction 1 2) = (a + 3 * b + 3 * c + d) / 8 := by
  simp only [cubic, Scalar.whole_eq, ExactScalar.fraction_eq]
  push_cast
  ring

/-- A curve is the same from its other end. -/
theorem curve_reverse (a b c d : Point K) :
    curve d c b a = ((curve a b c d).1.reverse, (curve a b c d).2) := by
  have hHalf (p q r s : K) :
      cubic s r q p (Scalar.fraction 1 2) = cubic p q r s (Scalar.fraction 1 2) := by
    rw [cubic_half, cubic_half]
    ring
  simp only [curve, cubicPoint, hHalf, List.reverse_cons, List.reverse_nil, List.nil_append,
    List.cons_append]

/-- Seven tenths of the way to one end are three tenths of the way to the other. -/
theorem tenths_swap (x y : K) :
    y + Scalar.fraction 7 10 * (x - y) = x + Scalar.fraction 3 10 * (y - x) := by
  simp only [ExactScalar.fraction_eq]
  push_cast
  ring

theorem geometry_mirror (shape : EdgeShape) (a b : Anchor K) :
    geometry shape.mirror b a = ((geometry shape a b).1.reverse, (geometry shape a b).2) := by
  have hLeave := tenths_swap a.x b.x
  have hArrive := (tenths_swap b.x a.x).symm
  cases shape with
  | straight => simp [geometry, EdgeShape.mirror, add_comm]
  | orthogonal =>
      simp only [geometry, EdgeShape.mirror, eq_comm (a := b.cycle), add_comm b.x, add_comm b.y]
      split_ifs <;> rfl
  | horizontalVertical => rfl
  | verticalHorizontal => rfl
  | curved =>
      simp only [geometry, EdgeShape.mirror, hLeave, hArrive]
      exact curve_reverse _ _ _ _
  | curvedStart =>
      simp only [geometry, EdgeShape.mirror, hArrive]
      exact curve_reverse _ _ _ _
  | curvedEnd =>
      simp only [geometry, EdgeShape.mirror, hLeave]
      exact curve_reverse _ _ _ _

/-- Between any two anchors there is a path. -/
theorem between_eq (spec : EdgeSpec) (a b : Anchor K) :
    between spec a b = .ok ⟨spec, a, b, (geometry spec.style.shape a b).1,
      (geometry spec.style.shape a b).2⟩ := by
  rw [between, course, checkEnds, Scalar.allChecked_eq]
  rfl

/-- An edge is resolved to the course of its shape between the anchors that it names. -/
theorem resolve_eq_ok_iff {spec : EdgeSpec} {r : Registry K} {path : EdgePath K} :
    resolve spec r = .ok path ↔ ∃ a b, r.find? spec.source = some a ∧ r.find? spec.target = some b ∧
      path = ⟨spec, a, b, (geometry spec.style.shape a b).1, (geometry spec.style.shape a b).2⟩ := by
  rw [resolve, ends, Registry.lookup, Registry.lookup]
  cases r.find? spec.source with
  | none => simp [Except.mapError]
  | some a =>
      cases r.find? spec.target with
      | none => simp [Except.mapError]
      | some b =>
          change (liftM (between spec a b) : Except Error (EdgePath K)) = .ok path ↔ _
          rw [between_eq, liftM_ok]
          simp [eq_comm]

/-- An edge from the other end takes the same path. Its points come the other way round and its label
stays where it is; where the edge is resolved the mirrored one is as well, and what each arrowhead is
seen from changes over to the other end. -/
theorem mirrored_takes_same_path (shape : EdgeShape) (a b : Anchor K) :
    (geometry shape a b).1.reverse = (geometry shape.mirror b a).1 ∧
      (geometry shape a b).2 = (geometry shape.mirror b a).2 ∧
      ∀ (r : Registry K) (spec back : EdgeSpec) (path : EdgePath K), back.source = spec.target →
        back.target = spec.source → back.style.shape = spec.style.shape.mirror →
        resolve spec r = .ok path → ∃ other, resolve back r = .ok other ∧
          other.source = path.target ∧ other.target = path.source ∧
          other.points = path.points.reverse ∧ other.labelAt = path.labelAt ∧
          startEnds other.points other.source.point = stopEnds path.points path.target.point ∧
          stopEnds other.points other.target.point = startEnds path.points path.source.point ∧
          other.startAngle = path.stopAngle ∧ other.stopAngle = path.startAngle := by
  have hMirror := geometry_mirror shape a b
  refine ⟨(congrArg Prod.fst hMirror).symm, (congrArg Prod.snd hMirror).symm, ?_⟩
  intro r spec back path hSource hTarget hShape hPath
  obtain ⟨first, last, hFirst, hLast, rfl⟩ := resolve_eq_ok_iff.mp hPath
  have hOther : geometry back.style.shape last first =
      ((geometry spec.style.shape first last).1.reverse, (geometry spec.style.shape first last).2) :=
    hShape ▸ geometry_mirror spec.style.shape first last
  refine ⟨_, resolve_eq_ok_iff.mpr ⟨last, first, hSource ▸ hLast, hTarget ▸ hFirst, rfl⟩, rfl, rfl,
    ?_⟩
  simp only [startAngle, stopAngle, stopEnds, hOther, List.reverse_reverse, and_self]

/-- Two anchors in different cycles. -/
def crossing : Registry ℝ where
  anchors := [⟨"a", "req", 0, 1, 100, 20⟩, ⟨"b", "ack", 1, 3, 200, 60⟩]
  nodup := by decide

/-- A curve that arrives in a doubled control point: the arrowhead there is seen from the point before,
which is what the one at the start of the mirrored curve is seen from. -/
theorem mirrored_takes_same_path_curve :
    let spec : EdgeSpec := { source := "a", target := "b", style := { shape := .curvedStart } }
    let back : EdgeSpec := { source := "b", target := "a", style := { shape := .curvedEnd } }
    back.source = spec.target ∧ back.target = spec.source ∧
      back.style.shape = spec.style.shape.mirror ∧ ∃ path other,
        resolve spec crossing = .ok path ∧ resolve back crossing = .ok other ∧
          path.points = [⟨100, 20⟩, ⟨170, 20⟩, ⟨200, 60⟩, ⟨200, 60⟩] ∧
          other.points = [⟨200, 60⟩, ⟨200, 60⟩, ⟨170, 20⟩, ⟨100, 20⟩] ∧
          startEnds other.points other.source.point = (⟨200, 60⟩, ⟨170, 20⟩) ∧
          other.startAngle = path.stopAngle := by
  intro spec back
  let a : Anchor ℝ := ⟨"a", "req", 0, 1, 100, 20⟩
  let b : Anchor ℝ := ⟨"b", "ack", 1, 3, 200, 60⟩
  have hPath : resolve spec crossing = .ok ⟨spec, a, b, (geometry .curvedStart a b).1,
      (geometry .curvedStart a b).2⟩ := resolve_eq_ok_iff.mpr ⟨a, b, rfl, rfl, rfl⟩
  have hPoints : (geometry .curvedStart a b).1 =
      [⟨100, 20⟩, ⟨170, 20⟩, ⟨200, 60⟩, ⟨200, 60⟩] := by
    norm_num [geometry, curve, a, b]
  obtain ⟨_, _, hMirrored⟩ := mirrored_takes_same_path .curvedStart a b
  obtain ⟨other, hOther, _, _, hReverse, _, hStart, _, hAngle, _⟩ :=
    hMirrored crossing spec back _ rfl rfl rfl hPath
  simp only [hPoints] at hReverse hStart
  refine ⟨rfl, rfl, rfl, _, other, hPath, hOther, hPoints, hReverse, hStart.trans ?_, hAngle⟩
  norm_num [stopEnds, startEnds, reference, BEq.beq]

end EdgePath
end TimingDiagram
