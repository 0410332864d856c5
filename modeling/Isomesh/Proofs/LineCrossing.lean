import Mathlib
import Isomesh.Proofs.RayQueries

/-!
# When a line crosses a triangle

The system of a crossing has a determinant. A line is nearly parallel to a triangle when that is small
against the lengths involved, and then it crosses nothing; this covers triangles without area. Any other
line crosses the triangle just where one of its points belongs to it, sides and corners included.

* `Triangle.NearlyParallel`: the lines that are left out.
* `Triangle.crossedByLine_eq_some_iff`, `Triangle.isSome_crossedByRay_iff`: all other lines and rays.
* `Triangle.nearlyParallel_iff`: the threshold without roots.
-/

set_option autoImplicit false

namespace Isomesh

/-! ## The system of a crossing -/

namespace Triangle

variable {K : Type} [Scalar K]

/-- The system for the place where a line crosses a triangle. -/
def crossingSystem (t : Triangle K) (direction : Vec3 K) : Mat3 K :=
  .ofColumns (t.b - t.a) (t.c - t.a) (-direction)

/-- Whether the determinant for lines of a direction counts as zero. -/
def NearlyParallel (t : Triangle K) (direction : Vec3 K) : Prop :=
  Scalar.abs (t.crossingSystem direction).det ≤
    parallelTolerance * (t.b - t.a).norm * (t.c - t.a).norm * direction.norm

instance (t : Triangle K) (direction : Vec3 K) : Decidable (t.NearlyParallel direction) :=
  inferInstanceAs (Decidable (_ ≤ _))

theorem crossedByLine_eq (t : Triangle K) (ray : Ray K) : t.crossedByLine ray =
    if t.NearlyParallel ray.direction then none
    else (t.crossingSystem ray.direction).inverse?.bind fun inverse =>
      let place := inverse.apply (ray.origin - t.a)
      if 0 ≤ place.x ∧ 0 ≤ place.y ∧ place.x + place.y ≤ 1 then some place.z else none := rfl

end Triangle

variable {K : Type} [Field K] [LinearOrder K] [IsStrictOrderedRing K] [FloorRing K] [SquareRoot K]

theorem Mat3.inverse_apply {m n : Mat3 K} (h : m.inverse? = some n) (v : Vec3 K) :
    n.apply (m.apply v) = v := by
  obtain ⟨⟨a, b, c⟩, ⟨e, f, g⟩, ⟨p, q, r⟩⟩ := m
  unfold inverse? at h
  lift_lets at h
  extract_lets d at h
  split_ifs at h with hzero
  have hd : d ≠ 0 := mt Exact.isZero_iff.2 hzero
  have hdet : d = a * (f * r - q * g) - b * (e * r - p * g) + c * (e * q - p * f) := rfl
  cases h
  refine Vec3.ext_get fun axis => ?_
  cases axis
  all_goals
    simp only [apply, Vec3.get, Vec3.dot, minor1, minor2, minor3]
    field_simp
    rw [hdet]
    ring

/-- A matrix with a determinant has an inverse. -/
theorem Mat3.exists_inverse {m : Mat3 K} (h : m.det ≠ 0) : ∃ n, m.inverse? = some n := by
  unfold inverse?
  lift_lets
  extract_lets d
  rw [if_neg (mt Exact.isZero_iff.1 h)]
  exact ⟨_, rfl⟩

/-! ## Points on the line -/

/-- Whether a ray has a point of the triangle. -/
def Triangle.MetBy (t : Triangle K) (ray : Ray K) : Prop := ∃ s, 0 ≤ s ∧ t.HasPoint (ray.pointAt s)

theorem parallelTolerance_nonneg : 0 ≤ (parallelTolerance : K) := by
  unfold parallelTolerance
  norm_num

namespace Triangle

variable {t : Triangle K} {ray : Ray K} {s : K}

theorem metBy_iff : t.MetBy ray ↔ ∃ s u v, 0 ≤ s ∧ 0 ≤ u ∧ 0 ≤ v ∧ u + v ≤ 1 ∧ ∀ axis,
    ray.origin.get axis + ray.direction.get axis * s =
      (1 - u - v) * t.a.get axis + u * t.b.get axis + v * t.c.get axis := by
  constructor
  · rintro ⟨s, hs, u, v, hu, hv, huv, hpoint⟩
    refine ⟨s, u, v, hs, hu, hv, huv, fun axis => ?_⟩
    rw [← Ray.get_pointAt, hpoint, get_pointAt]
  · rintro ⟨s, u, v, hs, hu, hv, huv, haxis⟩
    refine ⟨s, hs, u, v, hu, hv, huv, Vec3.ext_get fun axis => ?_⟩
    rw [Ray.get_pointAt, haxis, get_pointAt]

/-- The determinant is the volume that the direction spans with the two sides, up to its sign. -/
theorem det_crossingSystem (t : Triangle K) (direction : Vec3 K) :
    (t.crossingSystem direction).det = -t.areaNormal.dot direction := by
  simp only [crossingSystem, Mat3.det, Mat3.ofColumns, Mat3.minor1, Mat3.minor2, Mat3.minor3,
    areaNormal, Vec3.dot, Vec3.cross, Vec3.neg_def]
  ring

/-- A point of the triangle on the line solves the system. -/
theorem apply_crossingSystem {u v : K} (h : ray.pointAt s = t.pointAt u v) :
    (t.crossingSystem ray.direction).apply ⟨u, v, s⟩ = ray.origin - t.a := by
  refine Vec3.ext_get fun axis => ?_
  have haxis := congrArg (Vec3.get · axis) h
  simp only [Ray.get_pointAt, pointAt, Vec3.get_add, Vec3.get_sub, Vec3.get_scale] at haxis
  have hrow : ((t.crossingSystem ray.direction).apply ⟨u, v, s⟩).get axis =
      (t.b - t.a).get axis * u + (t.c - t.a).get axis * v - ray.direction.get axis * s := by
    cases axis
    all_goals
      simp only [crossingSystem, Mat3.apply, Mat3.ofColumns, Vec3.get, Vec3.dot, Vec3.neg_def]
      ring
  rw [hrow, Vec3.get_sub, Vec3.get_sub, Vec3.get_sub]
  linear_combination -haxis

section ExactRoot

variable [ExactRoot K]

theorem threshold_nonneg (t : Triangle K) (direction : Vec3 K) :
    0 ≤ parallelTolerance * (t.b - t.a).norm * (t.c - t.a).norm * direction.norm :=
  mul_nonneg (mul_nonneg (mul_nonneg parallelTolerance_nonneg (Vec3.norm_nonneg _))
    (Vec3.norm_nonneg _)) (Vec3.norm_nonneg _)

theorem det_crossingSystem_ne_zero (h : ¬t.NearlyParallel ray.direction) :
    (t.crossingSystem ray.direction).det ≠ 0 := by
  intro hzero
  refine h ?_
  rw [NearlyParallel, Exact.abs_eq_abs, hzero, abs_zero]
  exact t.threshold_nonneg ray.direction

/-- **A line crosses a triangle where one of its points belongs to it**, unless it is nearly parallel. -/
theorem crossedByLine_eq_some_iff :
    t.crossedByLine ray = some s ↔ ¬t.NearlyParallel ray.direction ∧ t.HasPoint (ray.pointAt s) := by
  constructor
  · intro h
    refine ⟨fun hparallel => ?_, hasPoint_of_crossedByLine h⟩
    rw [crossedByLine_eq, if_pos hparallel] at h
    cases h
  · rintro ⟨hflat, u, v, hu, hv, huv, hpoint⟩
    obtain ⟨n, hn⟩ := Mat3.exists_inverse (det_crossingSystem_ne_zero hflat)
    have hplace : n.apply (ray.origin - t.a) = ⟨u, v, s⟩ := by
      rw [← apply_crossingSystem hpoint, Mat3.inverse_apply hn]
    rw [crossedByLine_eq, if_neg hflat, hn, Option.bind_some, hplace]
    exact if_pos ⟨hu, hv, huv⟩

/-- **A ray crosses a triangle when it has a point of it**, unless it is nearly parallel. -/
theorem isSome_crossedByRay_iff :
    (t.crossedByRay ray).isSome = true ↔ ¬t.NearlyParallel ray.direction ∧ t.MetBy ray := by
  simp only [Option.isSome_iff_exists, crossedByRay, Option.filter_eq_some_iff, decide_eq_true_eq,
    crossedByLine_eq_some_iff]
  constructor
  · rintro ⟨s, ⟨hflat, hpoint⟩, hs⟩
    exact ⟨hflat, s, hs, hpoint⟩
  · rintro ⟨hflat, s, hs, hpoint⟩
    exact ⟨s, ⟨hflat, hpoint⟩, hs⟩

/-- The threshold, both sides squared. -/
theorem nearlyParallel_iff {direction : Vec3 K} : t.NearlyParallel direction ↔
    t.areaNormal.dot direction ^ 2 ≤
      parallelTolerance ^ 2 * (t.b - t.a).normSq * (t.c - t.a).normSq * direction.normSq := by
  rw [NearlyParallel, Exact.abs_eq_abs, det_crossingSystem, abs_neg,
    ← abs_of_nonneg (t.threshold_nonneg direction), ← sq_le_sq, ← Vec3.norm_mul_norm,
    ← Vec3.norm_mul_norm, ← Vec3.norm_mul_norm]
  ring_nf

end ExactRoot

end Triangle

end Isomesh
