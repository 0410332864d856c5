import Mathlib
import Isomesh.Overlap
import Isomesh.Proofs.ClosestPoint

/-!
# A ball that touches a triangle is near one of its points

The test of a ball against a triangle says yes at a corner, over the face or at a side. In exact
arithmetic each of these answers comes with a point of the triangle that is nearer to the center than
the radius: the corner, the foot of the center on the plane, or the nearest point of the side. A triangle
without area has no face, and its sides are all of it.

* `Vec3.norm_lt_iff`: lengths by their squares. No length is below a radius that is not positive.
* `exists_closestOnSegment`: the nearest point of a segment belongs to it.
* `Triangle.hasPoint_of_inPrism`: the points of the plane that are in the prism over the triangle.
* `Triangle.exists_near_of_touchesBall`: the main result.
-/

set_option autoImplicit false

namespace Isomesh

variable {K : Type} [Field K] [LinearOrder K] [IsStrictOrderedRing K] [FloorRing K] [SquareRoot K]

/-! ## Lengths -/

namespace Vec3

theorem dot_divide (u v : Vec3 K) (s : K) : u.dot (v.divide s) = u.dot v / s := by
  simp only [dot, divide]
  ring

variable [ExactRoot K]

theorem norm_lt_iff {v : Vec3 K} {r : K} : v.norm < r ↔ 0 < r ∧ v.normSq < r * r := by
  rw [← norm_mul_norm]
  constructor
  · intro h
    exact ⟨v.norm_nonneg.trans_lt h, mul_self_lt_mul_self v.norm_nonneg h⟩
  · rintro ⟨hr, hsq⟩
    exact lt_of_mul_self_lt_mul_self₀ hr.le hsq

theorem norm_pos_iff {v : Vec3 K} : 0 < v.norm ↔ 0 < v.normSq := by
  rw [← norm_mul_norm]
  exact ⟨fun h => mul_pos h h, fun h => v.norm_nonneg.lt_of_ne fun hzero => by simp [← hzero] at h⟩

theorem dist_lt_iff {p q : Vec3 K} {r : K} : p.dist q < r ↔ 0 < r ∧ p.distSq q < r * r := norm_lt_iff

end Vec3

/-! ## Segments -/

theorem Vec3.add_scale_zero (u v : Vec3 K) : u + v.scale 0 = u := Vec3.ext_get fun axis => by
  rw [Vec3.get_add, Vec3.get_scale, mul_zero, add_zero]

theorem Vec3.add_sub_scale_one (u v : Vec3 K) : u + (v - u).scale 1 = v := Vec3.ext_get fun axis => by
  rw [Vec3.get_add, Vec3.get_scale, Vec3.get_sub, mul_one, add_sub_cancel]

theorem Exact.clampUnit_mem_Icc (x : K) : Scalar.clampUnit x ∈ Set.Icc 0 1 := by
  unfold Scalar.clampUnit
  split_ifs with hneg hbig
  · exact ⟨le_rfl, zero_le_one⟩
  · exact ⟨zero_le_one, le_rfl⟩
  · exact ⟨not_lt.1 hneg, not_lt.1 hbig⟩

/-- The nearest point of a segment belongs to it, also when the segment has no length. -/
theorem exists_closestOnSegment (p a b : Vec3 K) :
    ∃ s, 0 ≤ s ∧ s ≤ 1 ∧ closestOnSegment p a b = a + (b - a).scale s := by
  unfold closestOnSegment
  lift_lets
  extract_lets v lenSq
  split_ifs with hzero
  · exact ⟨0, le_rfl, zero_le_one, (Vec3.add_scale_zero a v).symm⟩
  · obtain ⟨hlo, hhi⟩ := Exact.clampUnit_mem_Icc ((p - a).dot v / lenSq)
    exact ⟨_, hlo, hhi, rfl⟩

/-- A ball that touches a segment is near one of its points. -/
theorem exists_near_of_ballTouchesSegment {center a b : Vec3 K} {r : K}
    (h : ballTouchesSegment center r a b = true) :
    ∃ s, 0 ≤ s ∧ s ≤ 1 ∧ (a + (b - a).scale s).dist center < r := by
  rw [ballTouchesSegment, Bool.or_eq_true, Bool.or_eq_true, decide_eq_true_eq, decide_eq_true_eq,
    decide_eq_true_eq] at h
  rcases h with (ha | hb) | hnearest
  · refine ⟨0, le_rfl, zero_le_one, ?_⟩
    rwa [Vec3.add_scale_zero]
  · refine ⟨1, zero_le_one, le_rfl, ?_⟩
    rwa [Vec3.add_sub_scale_one]
  · obtain ⟨s, hs, hs', heq⟩ := exists_closestOnSegment center a b
    exact ⟨s, hs, hs', heq ▸ hnearest⟩

namespace Triangle

variable {t : Triangle K} {center p : Vec3 K} {r : K}

/-! ## The sides -/

/-- A ball that touches a side is near a point of the triangle. -/
theorem exists_near_of_sidesTouchBall (h : t.sidesTouchBall center r = true) :
    ∃ q, t.HasPoint q ∧ q.dist center < r := by
  simp only [sidesTouchBall, sides, List.any_cons, List.any_nil, Bool.or_false,
    Bool.or_eq_true] at h
  rcases h with hab | hbc | hca
  · obtain ⟨s, hs, hs', hnear⟩ := exists_near_of_ballTouchesSegment hab
    exact ⟨_, (t.hasPoint_sides hs hs').1, hnear⟩
  · obtain ⟨s, hs, hs', hnear⟩ := exists_near_of_ballTouchesSegment hbc
    exact ⟨_, (t.hasPoint_sides hs hs').2.2, hnear⟩
  · obtain ⟨s, hs, hs', hnear⟩ := exists_near_of_ballTouchesSegment hca
    have hturned : t.c + (t.a - t.c).scale s = t.a + (t.c - t.a).scale (1 - s) := by
      refine Vec3.ext_get fun axis => ?_
      simp only [Vec3.get_add, Vec3.get_sub, Vec3.get_scale]
      ring
    have hs₁ : 0 ≤ 1 - s := sub_nonneg.2 hs'
    have hs₂ : 1 - s ≤ 1 := sub_le_self 1 hs
    exact ⟨_, (t.hasPoint_sides hs₁ hs₂).2.1, hturned ▸ hnear⟩

/-! ## The face -/

/-- The prism test compares the distances to the sides with zero. -/
theorem inPrism_iff {len : K} (hlen : 0 < len) :
    t.inPrism (t.areaNormal.divide len) p = true ↔
      0 ≤ sideShare p t.a t.b t.c ∧ 0 ≤ sideShare p t.b t.c t.a ∧ 0 ≤ sideShare p t.a t.c t.b := by
  have hab : ((t.b - t.a).cross (p - t.a)).dot t.areaNormal = sideShare p t.a t.b t.c := by
    simp only [sideShare, along, areaNormal, Vec3.normSq, Vec3.dot, Vec3.cross, Vec3.sub_def]
    ring
  have hbc : ((t.c - t.b).cross (p - t.b)).dot t.areaNormal = sideShare p t.b t.c t.a := by
    simp only [sideShare, along, areaNormal, Vec3.normSq, Vec3.dot, Vec3.cross, Vec3.sub_def]
    ring
  have hca : ((t.a - t.c).cross (p - t.c)).dot t.areaNormal = sideShare p t.a t.c t.b := by
    simp only [sideShare, along, areaNormal, Vec3.normSq, Vec3.dot, Vec3.cross, Vec3.sub_def]
    ring
  simp only [inPrism, sides, List.all_cons, List.all_nil, Bool.and_true, Bool.and_eq_true,
    decide_eq_true_eq, Vec3.dot_divide, hab, hbc, hca, le_div_iff₀ hlen, zero_mul]

/-- **The points of the plane that are in the prism** over a triangle belong to the triangle. -/
theorem hasPoint_of_inPrism {len : K} (hlen : 0 < len) (harea : t.hasArea = true)
    (hplane : (p - t.a).dot t.areaNormal = 0)
    (h : t.inPrism (t.areaNormal.divide len) p = true) : t.HasPoint p := by
  have hspread : 0 < spread t.a t.b t.c := spread_pos harea
  obtain ⟨hab, hbc, hca⟩ := (inPrism_iff hlen).1 h
  have hsum : sideShare p t.b t.c t.a + sideShare p t.a t.c t.b + sideShare p t.a t.b t.c =
      spread t.a t.b t.c := sideShare_add ..
  refine ⟨_, _, div_nonneg hca hspread.le, div_nonneg hab hspread.le, ?_,
    (?_ : p = t.pointAt _ _)⟩
  · rw [← add_div, div_le_one hspread]
    linarith
  · rw [pointAt_sideShare hspread, hplane, zero_div]
    refine Vec3.ext_get fun axis => ?_
    rw [Vec3.get_sub, Vec3.get_scale, mul_zero, sub_zero]

variable [ExactRoot K]

/-- The foot of a point on the plane, by the unit normal. -/
theorem foot_spec (harea : t.hasArea = true) (center : Vec3 K) {normal : Vec3 K} {height : K}
    (hnormal : normal = t.areaNormal.divide t.areaNormal.norm)
    (hheight : height = (center - t.a).dot normal) :
    (center - normal.scale height - t.a).dot t.areaNormal = 0 ∧
      (center - normal.scale height).distSq center = height * height := by
  have hlen : t.areaNormal.norm ≠ 0 := (Vec3.norm_pos_iff.2 (of_decide_eq_true harea)).ne'
  have hsq : t.areaNormal.norm * t.areaNormal.norm = t.areaNormal.normSq := t.areaNormal.norm_mul_norm
  have hunit : normal.normSq = 1 := by
    have hscale : normal.normSq = t.areaNormal.normSq /
        (t.areaNormal.norm * t.areaNormal.norm) := by
      rw [hnormal]
      simp only [Vec3.normSq, Vec3.dot, Vec3.divide]
      field_simp
    rw [hscale, hsq]
    exact div_self (hsq ▸ mul_ne_zero hlen hlen)
  constructor
  · have hdot : (center - normal.scale height - t.a).dot t.areaNormal =
        (center - normal.scale height - t.a).dot normal * t.areaNormal.norm := by
      rw [hnormal, Vec3.dot_divide, div_mul_cancel₀ _ hlen]
    have hexpand : (center - normal.scale height - t.a).dot normal =
        (center - t.a).dot normal - height * normal.normSq := by
      simp only [Vec3.normSq, Vec3.dot, Vec3.scale, Vec3.sub_def]
      ring
    rw [hdot, hexpand, hunit, ← hheight, mul_one, sub_self, zero_mul]
  · have hback : center - normal.scale height - center = normal.scale (-height) := by
      refine Vec3.ext_get fun axis => ?_
      rw [Vec3.get_sub, Vec3.get_sub, Vec3.get_scale, Vec3.get_scale]
      ring
    rw [Vec3.distSq, hback, Vec3.normSq_scale, hunit, one_mul, neg_mul_neg]

/-! ## Main result -/

/-- **A ball that touches a triangle is near one of its points**, whatever the triangle and the radius
are. -/
theorem exists_near_of_touchesBall (h : t.touchesBall center r = true) :
    ∃ q, t.HasPoint q ∧ q.dist center < r := by
  unfold touchesBall at h
  lift_lets at h
  extract_lets n len normal height at h
  split_ifs at h with hcorner harea hfar hprism
  · obtain ⟨q, hq, hnear⟩ := List.any_eq_true.1 hcorner
    exact ⟨q, t.hasPoint_of_mem_corners hq, of_decide_eq_true hnear⟩
  · have harea' : t.hasArea = true := decide_eq_true (Vec3.norm_pos_iff.1 harea)
    obtain ⟨hplane, hdist⟩ := foot_spec harea' center (rfl : normal = _) (rfl : height = _)
    refine ⟨center - normal.scale height, hasPoint_of_inPrism harea harea' hplane hprism, ?_⟩
    rw [Exact.abs_eq_abs, not_le] at hfar
    have hsq : |height| * |height| < r * r := mul_self_lt_mul_self (abs_nonneg _) hfar
    rw [Vec3.dist_lt_iff, hdist, ← abs_mul_abs_self height]
    exact ⟨(abs_nonneg _).trans_lt hfar, hsq⟩
  · exact exists_near_of_sidesTouchBall h
  · exact exists_near_of_sidesTouchBall h

end Triangle

end Isomesh
