import Mathlib
import Isomesh.Proofs.LineCrossing
import Isomesh.Proofs.TouchedShapes

/-!
# Crossings are exact and do not depend on units

A line of the plane crosses a segment, and a line in space a triangle, at the one multiple of its
direction at which it has a point of the shape. Left out are the lines whose determinant is small against
the lengths involved. For the others the system has one solution, so there is one multiple at most.

Determinant and threshold are proportional to the same lengths. So a line is left out in all units of
length or in none, and the multiple changes with the units of the points and of the direction.

* `Pinpoints`: what an answer about a line has to be, and `Pinpoints.eq_map`, the answer in other units.
* `pinpoints_lineCrossesSegment`, `Triangle.pinpoints_crossedByLine`: the answers are right.
* `nearlyAlong_scale_iff`, `Triangle.nearlyParallel_scale_iff`: the thresholds in other units.
* `crossings_exact_in_all_units`: the main result.
-/

set_option autoImplicit false

namespace Isomesh

/-! ## Answers about a line -/

/-- Whether an answer is the one multiple at which a line meets a shape, and none for a line that is left
out. -/
structure Pinpoints {K : Type} (leftOut : Prop) (meets : K → Prop) (answer : Option K) : Prop where
  eq_none : leftOut → answer = none
  eq_some_iff : ¬leftOut → ∀ r, answer = some r ↔ meets r
  unique : ¬leftOut → ∀ r r', meets r → meets r' → r = r'

theorem Pinpoints.of_iff {K : Type} {leftOut : Prop} {meets : K → Prop} {answer : Option K}
    (h : ∀ r, answer = some r ↔ ¬leftOut ∧ meets r) : Pinpoints leftOut meets answer where
  eq_none hout := Option.eq_none_iff_forall_ne_some.2 fun r hr => ((h r).1 hr).1 hout
  eq_some_iff hin r := (h r).trans (and_iff_right hin)
  unique hin r r' hr hr' := Option.some_inj.1 (((h r).2 ⟨hin, hr⟩).symm.trans ((h r').2 ⟨hin, hr'⟩))

variable {K : Type} [Field K] [LinearOrder K] [IsStrictOrderedRing K] [FloorRing K] [SquareRoot K]

/-- **The answer in other units**, when the lengths are multiplied by `s` and the direction by `c`. -/
theorem Pinpoints.eq_map {leftOut leftOut' : Prop} {meets meets' : K → Prop} {answer answer' : Option K}
    {s c : K} (h : Pinpoints leftOut meets answer) (h' : Pinpoints leftOut' meets' answer')
    (hs : s ≠ 0) (hc : c ≠ 0) (hout : leftOut' ↔ leftOut) (hmeets : ∀ r, meets' (r * s / c) ↔ meets r) :
    answer' = answer.map (· * s / c) := by
  by_cases hleft : leftOut
  · rw [h.eq_none hleft, h'.eq_none (hout.2 hleft), Option.map_none]
  have hleft' : ¬leftOut' := mt hout.1 hleft
  refine Option.ext fun r => ?_
  rw [h'.eq_some_iff hleft', Option.map_eq_some_iff]
  constructor
  · intro hr
    -- the multiple in the old units
    have hback : r * c / s * s / c = r := by field_simp
    exact ⟨r * c / s, (h.eq_some_iff hleft _).2 ((hmeets _).1 (hback.symm ▸ hr)), hback⟩
  · rintro ⟨r, hr, rfl⟩
    exact (hmeets r).2 ((h.eq_some_iff hleft r).1 hr)

/-! ## Lengths in other units -/

namespace Vec3

theorem scale_sub_scale (u v : Vec3 K) (s : K) : u.scale s - v.scale s = (u - v).scale s :=
  ext_get fun axis => by simp only [get_sub, get_scale, sub_mul]

theorem scale_inj {u v : Vec3 K} {s : K} (hs : s ≠ 0) : u.scale s = v.scale s ↔ u = v := by
  constructor
  · intro h
    refine ext_get fun axis => mul_right_cancel₀ hs ?_
    rw [← get_scale, h, get_scale]
  · exact fun h => h ▸ rfl

end Vec3

namespace Vec2

theorem scale_sub_scale (u v : Vec2 K) (s : K) : u.scale s - v.scale s = (u - v).scale s := by
  simp only [scale, sub_def, sub_mul]

theorem scale_inj {u v : Vec2 K} {s : K} (hs : s ≠ 0) : u.scale s = v.scale s ↔ u = v := by
  obtain ⟨x, y⟩ := u
  obtain ⟨z, w⟩ := v
  simp only [scale, mk.injEq, mul_left_inj' hs]

theorem norm_inSpace (v : Vec2 K) : v.inSpace.norm = v.norm := by rw [Vec3.norm, normSq_inSpace, norm]

variable [ExactRoot K]

theorem norm_nonneg (v : Vec2 K) : 0 ≤ v.norm := v.norm_inSpace ▸ v.inSpace.norm_nonneg

theorem norm_scale (v : Vec2 K) {s : K} (hs : 0 ≤ s) : (v.scale s).norm = v.norm * s := by
  rw [← norm_inSpace, inSpace_scale, Vec3.norm_scale _ hs, norm_inSpace]

end Vec2

/-! ## Lines of the plane -/

/-- A matrix with a determinant has an inverse, which solves its systems. -/
theorem Mat2.exists_inverse {m : Mat2 K} (h : m.det ≠ 0) :
    ∃ n, m.inverse? = some n ∧ ∀ u v, m.apply u = v ↔ n.apply v = u := by
  obtain ⟨⟨a, b⟩, ⟨c, d⟩⟩ := m
  unfold inverse?
  lift_lets
  extract_lets e
  have hdet : e = a * d - c * b := rfl
  have he : e ≠ 0 := h
  rw [if_neg (mt Exact.isZero_iff.1 he)]
  refine ⟨_, rfl, fun u v => ⟨?_, ?_⟩⟩
  all_goals
    rintro rfl
    simp only [apply, Vec2.dot]
    congr 1
    all_goals
      field_simp
      rw [hdet]
      ring

section Plane

variable {K : Type} [Scalar K]

/-- The system for the place where a line of the plane crosses a segment. -/
def segmentSystem (direction a b : Vec2 K) : Mat2 K := .ofColumns (b - a) (-direction)

/-- Whether the determinant for lines of a direction counts as zero. -/
def NearlyAlong (direction a b : Vec2 K) : Prop :=
  Scalar.abs (segmentSystem direction a b).det ≤ parallelTolerance * (b - a).norm * direction.norm

/-- Whether a point belongs to a segment, its ends included. -/
def OnSegment (a b p : Vec2 K) : Prop := ∃ s, 0 ≤ s ∧ s ≤ 1 ∧ p = a + (b - a).scale s

instance (direction a b : Vec2 K) : Decidable (NearlyAlong direction a b) :=
  inferInstanceAs (Decidable (_ ≤ _))

theorem lineCrossesSegment_eq (origin direction a b : Vec2 K) : lineCrossesSegment origin direction a b =
    if NearlyAlong direction a b then none
    else (segmentSystem direction a b).inverse?.bind fun inverse =>
      let place := inverse.apply (origin - a)
      if Scalar.inUnit place.x then some place.y else none := rfl

end Plane

section Segments

variable {origin direction a b p : Vec2 K} {r s c : K}

/-- A place solves the system when it is the same point on the line and on the segment. -/
theorem apply_segmentSystem_iff : (segmentSystem direction a b).apply ⟨s, r⟩ = origin - a ↔
    origin + direction.scale r = a + (b - a).scale s := by
  simp only [segmentSystem, Mat2.apply, Mat2.ofColumns, Vec2.dot, Vec2.scale, Vec2.add_def, Vec2.sub_def,
    Vec2.neg_def, Vec2.mk.injEq]
  constructor
  all_goals
    rintro ⟨hx, hy⟩
    constructor
    · linear_combination -hx
    · linear_combination -hy

theorem det_segmentSystem_scale (direction a b : Vec2 K) (s c : K) :
    (segmentSystem (direction.scale c) (a.scale s) (b.scale s)).det =
      (segmentSystem direction a b).det * (s * c) := by
  simp only [segmentSystem, Mat2.det, Mat2.ofColumns, Vec2.scale, Vec2.sub_def, Vec2.neg_def]
  ring

theorem onSegment_scale_iff (hs : s ≠ 0) :
    OnSegment (a.scale s) (b.scale s) (p.scale s) ↔ OnSegment a b p := by
  have hpoint (x : K) : a.scale s + (b.scale s - a.scale s).scale x = (a + (b - a).scale x).scale s := by
    simp only [Vec2.scale, Vec2.add_def, Vec2.sub_def, Vec2.mk.injEq]
    constructor <;> ring
  simp only [OnSegment, hpoint, Vec2.scale_inj hs]

/-- A point of a line, in other units. -/
theorem linePoint_scale (origin direction : Vec2 K) (r s : K) (hc : c ≠ 0) :
    origin.scale s + (direction.scale c).scale (r * s / c) = (origin + direction.scale r).scale s := by
  simp only [Vec2.scale, Vec2.add_def, Vec2.mk.injEq]
  constructor <;> field_simp

variable [ExactRoot K]

theorem det_segmentSystem_ne_zero (h : ¬NearlyAlong direction a b) :
    (segmentSystem direction a b).det ≠ 0 := by
  intro hzero
  refine h ?_
  rw [NearlyAlong, Exact.abs_eq_abs, hzero, abs_zero]
  exact mul_nonneg (mul_nonneg parallelTolerance_nonneg (Vec2.norm_nonneg _)) (Vec2.norm_nonneg _)

/-- **A line is nearly along a segment in all units or in none.** -/
theorem nearlyAlong_scale_iff (hs : 0 < s) (hc : 0 < c) :
    NearlyAlong (direction.scale c) (a.scale s) (b.scale s) ↔ NearlyAlong direction a b := by
  -- determinant and threshold are multiplied by the same
  have hthreshold : parallelTolerance * ((b - a).norm * s) * (direction.norm * c) =
      parallelTolerance * (b - a).norm * direction.norm * (s * c) := by ring
  rw [NearlyAlong, NearlyAlong, det_segmentSystem_scale, Exact.abs_eq_abs, Exact.abs_eq_abs, abs_mul,
    abs_of_pos (mul_pos hs hc), Vec2.scale_sub_scale, Vec2.norm_scale _ hs.le, Vec2.norm_scale _ hc.le,
    hthreshold, mul_le_mul_iff_left₀ (mul_pos hs hc)]

/-- **A line crosses a segment where one of its points belongs to it**, unless it is nearly along it. -/
theorem pinpoints_lineCrossesSegment (origin direction a b : Vec2 K) :
    Pinpoints (NearlyAlong direction a b) (fun r => OnSegment a b (origin + direction.scale r))
      (lineCrossesSegment origin direction a b) := by
  refine .of_iff fun r => ?_
  rw [lineCrossesSegment_eq]
  by_cases hout : NearlyAlong direction a b
  · rw [if_pos hout]
    exact iff_of_false (Option.some_ne_none r).symm fun h => h.1 hout
  rw [if_neg hout]
  obtain ⟨n, hn, hsolves⟩ := Mat2.exists_inverse (det_segmentSystem_ne_zero hout)
  simp only [hn, Option.bind_some, OnSegment, ← apply_segmentSystem_iff, hsolves]
  generalize n.apply (origin - a) = place
  constructor
  · intro h
    split_ifs at h with hunit
    cases h
    rw [Scalar.inUnit, Bool.and_eq_true, decide_eq_true_eq, decide_eq_true_eq] at hunit
    exact ⟨hout, place.x, hunit.1, hunit.2, rfl⟩
  · rintro ⟨-, s, hs, hs', rfl⟩
    exact if_pos (by simp [Scalar.inUnit, hs, hs'])

end Segments

/-! ## Lines in space -/

/-- The ray whose origin is multiplied by `s` and whose direction is multiplied by `c`. -/
def Ray.rescale {K : Type} [Scalar K] (ray : Ray K) (s c : K) : Ray K :=
  ⟨ray.origin.scale s, ray.direction.scale c⟩

/-- A point of a line, in other units. -/
theorem Ray.pointAt_rescale (ray : Ray K) (r s : K) {c : K} (hc : c ≠ 0) :
    (ray.rescale s c).pointAt (r * s / c) = (ray.pointAt r).scale s := by
  refine Vec3.ext_get fun axis => ?_
  simp only [Ray.get_pointAt, Ray.rescale, Vec3.get_scale]
  field_simp

namespace Triangle

variable {t : Triangle K} {p direction : Vec3 K} {s c : K}

theorem areaNormal_scale (t : Triangle K) (s : K) :
    (t.map (·.scale s)).areaNormal = t.areaNormal.scale (s * s) := by
  simp only [areaNormal, map, Vec3.cross, Vec3.scale, Vec3.sub_def, Vec3.mk.injEq]
  refine ⟨?_, ?_, ?_⟩ <;> ring

theorem hasPoint_scale_iff (hs : s ≠ 0) :
    (t.map (·.scale s)).HasPoint (p.scale s) ↔ t.HasPoint p := by
  have hpoint (u v : K) : (t.map (·.scale s)).pointAt u v = (t.pointAt u v).scale s := by
    refine Vec3.ext_get fun axis => ?_
    simp only [get_pointAt, map, Vec3.get_scale]
    ring
  simp only [HasPoint, hpoint, Vec3.scale_inj hs]

variable [ExactRoot K]

/-- **A line is nearly parallel to a triangle in all units or in none.** -/
theorem nearlyParallel_scale_iff (hs : 0 < s) (hc : 0 < c) :
    (t.map (·.scale s)).NearlyParallel (direction.scale c) ↔ t.NearlyParallel direction := by
  -- in space both sides have to be counted, so the factor has `s` twice
  have hdet : ((t.map (·.scale s)).crossingSystem (direction.scale c)).det =
      (t.crossingSystem direction).det * (s * s * c) := by
    rw [det_crossingSystem, det_crossingSystem, areaNormal_scale]
    simp only [Vec3.dot, Vec3.scale]
    ring
  have hthreshold : parallelTolerance * ((t.b - t.a).norm * s) * ((t.c - t.a).norm * s) *
      (direction.norm * c) =
        parallelTolerance * (t.b - t.a).norm * (t.c - t.a).norm * direction.norm * (s * s * c) := by ring
  have hpos : 0 < s * s * c := mul_pos (mul_pos hs hs) hc
  rw [NearlyParallel, NearlyParallel, hdet, Exact.abs_eq_abs, Exact.abs_eq_abs, abs_mul, abs_of_pos hpos,
    map, Vec3.scale_sub_scale, Vec3.scale_sub_scale, Vec3.norm_scale _ hs.le, Vec3.norm_scale _ hs.le,
    Vec3.norm_scale _ hc.le, hthreshold, mul_le_mul_iff_left₀ hpos]

theorem pinpoints_crossedByLine (t : Triangle K) (ray : Ray K) :
    Pinpoints (t.NearlyParallel ray.direction) (fun r => t.HasPoint (ray.pointAt r)) (t.crossedByLine ray) :=
  .of_iff fun _ => crossedByLine_eq_some_iff

end Triangle

/-! ## Main result -/

variable [ExactRoot K]

/-- **The crossings of lines are exact and do not depend on units.** For every line and every segment of the
plane, and for every line and every triangle in space, the answer is none if the determinant is at most
the threshold. Otherwise it is the multiple of the direction at which the line has a point of the shape,
ends, sides and corners included; there is only one. When all points are multiplied by `s` and the
direction by `c`, both positive, none stays none, and a multiple is multiplied by `s / c`. The shape may
have no length or no area, and the direction may be zero. -/
theorem crossings_exact_in_all_units :
    (∀ origin direction a b : Vec2 K,
      Pinpoints (NearlyAlong direction a b) (fun r => OnSegment a b (origin + direction.scale r))
        (lineCrossesSegment origin direction a b) ∧
      ∀ s c, 0 < s → 0 < c →
        lineCrossesSegment (origin.scale s) (direction.scale c) (a.scale s) (b.scale s) =
          (lineCrossesSegment origin direction a b).map (· * s / c)) ∧
    ∀ (t : Triangle K) (ray : Ray K),
      Pinpoints (t.NearlyParallel ray.direction) (fun r => t.HasPoint (ray.pointAt r))
        (t.crossedByLine ray) ∧
      ∀ s c, 0 < s → 0 < c →
        (t.map (·.scale s)).crossedByLine (ray.rescale s c) = (t.crossedByLine ray).map (· * s / c) := by
  refine ⟨fun origin direction a b => ⟨pinpoints_lineCrossesSegment .., fun s c hs hc => ?_⟩,
    fun t ray => ⟨t.pinpoints_crossedByLine ray, fun s c hs hc => ?_⟩⟩
  · refine (pinpoints_lineCrossesSegment origin direction a b).eq_map
      (pinpoints_lineCrossesSegment ..) hs.ne' hc.ne' (nearlyAlong_scale_iff hs hc) fun r => ?_
    rw [linePoint_scale origin direction r s hc.ne', onSegment_scale_iff hs.ne']
  · refine (t.pinpoints_crossedByLine ray).eq_map
      (Triangle.pinpoints_crossedByLine ..) hs.ne' hc.ne' (Triangle.nearlyParallel_scale_iff hs hc) fun r => ?_
    rw [Ray.pointAt_rescale ray r s hc.ne', Triangle.hasPoint_scale_iff hs.ne']

/-- A triangle with its longest side on the first axis. -/
noncomputable def gable : Triangle ℝ := ⟨⟨-1, 0, 0⟩, ⟨1, 0, 0⟩, ⟨0, 1, 0⟩⟩

/-- A ray through the middle of the longest side of the gable. -/
noncomputable def sideRay : Ray ℝ := ⟨⟨0, 0, 1⟩, ⟨0, 0, -1⟩⟩

/-- A ray in the plane of the gable. -/
noncomputable def planeRay : Ray ℝ := ⟨⟨-1, 1, 0⟩, ⟨1, 0, 0⟩⟩

/-- A line through an end of a segment; a ray through a side of the gable and one in its plane, both also
with all points multiplied by three and the direction halved. -/
theorem crossings_of_gable : (0 : ℝ) < 3 ∧ (0 : ℝ) < 1 / 2 ∧
    lineCrossesSegment (⟨0, 0⟩ : Vec2 ℝ) ⟨2, 0⟩ ⟨5, 0⟩ ⟨5, 4⟩ = some (5 / 2) ∧
    gable.crossedByLine sideRay = some 1 ∧
    (gable.map (·.scale 3)).crossedByLine (sideRay.rescale 3 (1 / 2)) = some 6 ∧
    (gable.map (·.scale 3)).crossedByLine (planeRay.rescale 3 (1 / 2)) = none := by
  have hs : (0 : ℝ) < 3 := by norm_num
  have hc : (0 : ℝ) < 1 / 2 := by norm_num
  obtain ⟨hplane, hspace⟩ := crossings_exact_in_all_units (K := ℝ)
  have hsegment : ¬NearlyAlong (⟨2, 0⟩ : Vec2 ℝ) ⟨5, 0⟩ ⟨5, 4⟩ := by
    have hdirection : (⟨2, 0⟩ : Vec2 ℝ).norm = 2 := by
      change √(2 * 2 + 0 * 0) = 2
      norm_num
    have hlength : ((⟨5, 4⟩ : Vec2 ℝ) - ⟨5, 0⟩).norm = 4 := by
      change √((5 - 5) * (5 - 5) + (4 - 0) * (4 - 0)) = 4
      norm_num
    rw [NearlyAlong, hdirection, hlength, Exact.abs_eq_abs]
    norm_num [segmentSystem, Mat2.det, Mat2.ofColumns, Vec2.sub_def, Vec2.neg_def, parallelTolerance]
  have hside : ¬gable.NearlyParallel sideRay.direction := by
    rw [Triangle.nearlyParallel_iff]
    norm_num [gable, sideRay, Triangle.areaNormal, Vec3.cross, Vec3.dot, Vec3.normSq, Vec3.sub_def,
      parallelTolerance]
  have hflat : gable.NearlyParallel planeRay.direction := by
    rw [Triangle.nearlyParallel_iff]
    norm_num [gable, planeRay, Triangle.areaNormal, Vec3.cross, Vec3.dot, Vec3.normSq, Vec3.sub_def,
      parallelTolerance]
  have hcrossed : gable.crossedByLine sideRay = some 1 := by
    refine ((hspace gable sideRay).1.eq_some_iff hside 1).2 ⟨1 / 2, 0, by norm_num, by norm_num,
      by norm_num, Vec3.ext_get fun axis => ?_⟩
    rw [Ray.get_pointAt, Triangle.get_pointAt]
    cases axis <;> norm_num [gable, sideRay, Vec3.get]
  refine ⟨hs, hc, ?_, hcrossed, ?_, ?_⟩
  · refine ((hplane _ _ _ _).1.eq_some_iff hsegment _).2 ⟨0, le_rfl, zero_le_one, ?_⟩
    norm_num [Vec2.scale, Vec2.add_def, Vec2.sub_def]
  · rw [(hspace gable sideRay).2 3 (1 / 2) hs hc, hcrossed]
    norm_num
  · rw [(hspace gable planeRay).2 3 (1 / 2) hs hc, (hspace gable planeRay).1.eq_none hflat]
    rfl

end Isomesh
