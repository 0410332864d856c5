import Mathlib
import Isomesh.Proofs.NearestWithoutArea
import Isomesh.Proofs.TouchingBalls

/-!
# The overlap tests are exact

A disc or a ball touches a shape if and only if a point of the shape is strictly nearer to the center
than the radius. A test that says yes is known to be right; here it has to say yes for every such point.
On a segment the projection, stopped at the ends, is the nearest point. The plane of a triangle is no
farther than any of its points, so the test does not give up too early. What the face does not have is
left to the sides: a center that is not over the face has its nearest point on a side, and so has every
center if the triangle has no area.

* `closestOnSegment_le`, `ballTouchesSegment_iff`: segments in space.
* `discTouchesSegment_eq`: the test in the plane is the test in space.
* `Triangle.abs_height_lt`: the early no of the test of a triangle.
* `Triangle.onSides_or_overFace`: where the nearest point is.
* `overlap_tests_exact`: the main result.
-/

set_option autoImplicit false

namespace Isomesh

variable {K : Type} [Field K] [LinearOrder K] [IsStrictOrderedRing K] [FloorRing K] [SquareRoot K]

/-! ## Segments in space -/

/-- The nearest number of `[0, 1]` is on the way from `x` to each of its numbers. -/
theorem Exact.sub_clampUnit_mul_nonpos {s : K} (x : K) (hs : 0 ≤ s) (hs' : s ≤ 1) :
    (x - Scalar.clampUnit x) * (s - Scalar.clampUnit x) ≤ 0 := by
  unfold Scalar.clampUnit
  split_ifs with hneg hbig
  · rw [sub_zero, sub_zero]
    exact mul_nonpos_of_nonpos_of_nonneg hneg.le hs
  · exact mul_nonpos_of_nonneg_of_nonpos (sub_nonneg.2 hbig.le) (sub_nonpos.2 hs')
  · rw [sub_self, zero_mul]

/-- **No point of a segment is nearer** than the one that the projection finds. -/
theorem closestOnSegment_le (p a b : Vec3 K) {s : K} (hs : 0 ≤ s) (hs' : s ≤ 1) :
    (closestOnSegment p a b).distSq p ≤ (a + (b - a).scale s).distSq p := by
  refine distSq_le_of_dot_nonpos ?_
  unfold closestOnSegment
  lift_lets
  extract_lets v lenSq
  split_ifs with hzero
  · obtain ⟨hx, hy, hz⟩ := Vec3.eq_zero_of_normSq_eq_zero (Exact.isZero_iff.1 hzero : v.normSq = 0)
    have hstay : a + (b - a).scale s - a = v.scale s := by
      refine Vec3.ext_get fun axis => ?_
      rw [Vec3.get_sub, Vec3.get_add, add_sub_cancel_left]
    rw [hstay]
    simp [Vec3.dot, Vec3.scale, hx, hy, hz]
  · have hlen : 0 < lenSq := v.normSq_nonneg.lt_of_ne' fun h => hzero (Exact.isZero_iff.2 h)
    generalize hx : (p - a).dot v / lenSq = x
    have hdot : (p - a).dot v = x * lenSq := by rw [← hx, div_mul_cancel₀ _ hlen.ne']
    have hexpand : (p - (a + v.scale (Scalar.clampUnit x))).dot
        (a + v.scale s - (a + v.scale (Scalar.clampUnit x))) =
          (s - Scalar.clampUnit x) * ((p - a).dot v - Scalar.clampUnit x * v.normSq) := by
      simp only [Vec3.normSq, Vec3.dot, Vec3.scale, Vec3.add_def, Vec3.sub_def]
      ring
    have hangle : (p - (a + v.scale (Scalar.clampUnit x))).dot
        (a + v.scale s - (a + v.scale (Scalar.clampUnit x))) =
          (x - Scalar.clampUnit x) * (s - Scalar.clampUnit x) * lenSq := by
      rw [hexpand, hdot]
      ring
    rw [hangle]
    exact mul_nonpos_of_nonpos_of_nonneg (Exact.sub_clampUnit_mul_nonpos x hs hs') hlen.le

/-! ## Segments in the plane -/

namespace Vec2

/-- The point of space over a point of the plane, at height zero. -/
def inSpace (v : Vec2 K) : Vec3 K := ⟨v.x, v.y, 0⟩

theorem inSpace_add (u v : Vec2 K) : (u + v).inSpace = u.inSpace + v.inSpace := by
  rw [inSpace, inSpace, inSpace, Vec3.add_def, add_zero, add_def]

theorem inSpace_sub (u v : Vec2 K) : (u - v).inSpace = u.inSpace - v.inSpace := by
  rw [inSpace, inSpace, inSpace, Vec3.sub_def, sub_zero, sub_def]

theorem inSpace_scale (v : Vec2 K) (s : K) : (v.scale s).inSpace = v.inSpace.scale s := by
  rw [inSpace, inSpace, Vec3.scale, zero_mul, scale]

theorem dot_inSpace (u v : Vec2 K) : u.inSpace.dot v.inSpace = u.dot v := by
  rw [inSpace, inSpace, Vec3.dot, dot, mul_zero, add_zero]

theorem normSq_inSpace (v : Vec2 K) : v.inSpace.normSq = v.normSq := dot_inSpace v v

theorem dist_inSpace (u v : Vec2 K) : u.inSpace.dist v.inSpace = (u - v).norm := by
  rw [Vec3.dist, Vec3.norm, ← inSpace_sub, normSq_inSpace, norm]

theorem add_scale_zero (u v : Vec2 K) : u + v.scale 0 = u := by
  rw [scale, add_def, mul_zero, mul_zero, add_zero, add_zero]

theorem add_sub_scale_one (u v : Vec2 K) : u + (v - u).scale 1 = v := by
  rw [scale, add_def, sub_def, mul_one, mul_one, add_sub_cancel, add_sub_cancel]

end Vec2

theorem closestOnSegment_inSpace (p a b : Vec2 K) :
    closestOnSegment p.inSpace a.inSpace b.inSpace = Vec2.inSpace
      (if Scalar.isZero (b - a).normSq then a
        else a + (b - a).scale (Scalar.clampUnit ((p - a).dot (b - a) / (b - a).normSq))) := by
  simp only [closestOnSegment, ← Vec2.inSpace_sub, Vec2.normSq_inSpace, Vec2.dot_inSpace,
    ← Vec2.inSpace_scale, ← Vec2.inSpace_add, apply_ite Vec2.inSpace]

/-- **The test in the plane is the test in space.** Its projection does not stop at the ends, but counts
only between them, and the ends have been looked at. -/
theorem discTouchesSegment_eq (center a b : Vec2 K) (r : K) :
    discTouchesSegment center r a b = ballTouchesSegment center.inSpace r a.inSpace b.inSpace := by
  rw [ballTouchesSegment, closestOnSegment_inSpace, Vec2.dist_inSpace, Vec2.dist_inSpace,
    Vec2.dist_inSpace]
  unfold discTouchesSegment
  lift_lets
  extract_lets v lenSq x
  by_cases hends : (a - center).norm < r ∨ (b - center).norm < r
  · rw [if_pos hends, eq_comm]
    simp only [Bool.or_eq_true, decide_eq_true_eq]
    exact .inl hends
  obtain ⟨ha, hb⟩ := not_or.1 hends
  rw [if_neg hends, decide_eq_false ha, decide_eq_false hb, Bool.or_false, Bool.false_or]
  by_cases hzero : Scalar.isZero lenSq = true
  · rw [if_pos hzero, if_pos hzero, decide_eq_false ha]
  rw [if_neg hzero, if_neg hzero]
  change (Scalar.inUnit x && decide ((a + v.scale x - center).norm < r)) =
    decide ((a + v.scale (Scalar.clampUnit x) - center).norm < r)
  unfold Scalar.inUnit Scalar.clampUnit
  split_ifs with hneg hbig
  · rw [decide_eq_false (not_le.2 hneg), Bool.false_and, Bool.false_and, Vec2.add_scale_zero,
      decide_eq_false ha]
  · rw [decide_eq_false (not_le.2 hbig), Bool.and_false, Bool.false_and, Vec2.add_sub_scale_one,
      decide_eq_false hb]
  · rw [decide_eq_true (not_lt.1 hneg), decide_eq_true (not_lt.1 hbig), Bool.true_and, Bool.true_and]

/-! ## The sides of a triangle -/

namespace Triangle

variable {t : Triangle K} {p q : Vec3 K}

/-- Whether a place is over the face of a triangle: beyond none of its sides. -/
def OverFace (t : Triangle K) (p : Vec3 K) : Prop :=
  0 ≤ sideShare p t.a t.b t.c ∧ 0 ≤ sideShare p t.b t.c t.a ∧ 0 ≤ sideShare p t.a t.c t.b

/-- **Where the nearest point is**, if the triangle has area: on a side, unless the place is over the
face. -/
theorem onSides_or_overFace (h : t.hasArea = true) (p : Vec3 K) :
    t.OnSides (t.closest p) ∨ t.OverFace p := by
  obtain ⟨honA, honB, honC⟩ := t.onSides_corners
  rw [closest_eq h]
  split_ifs with hatA hatB hatAB hatC hatAC hatBC
  · exact .inl honA
  · exact .inl honB
  · exact .inl (t.onSides_sides (shareBetween_nonneg hatAB) (shareBetween_le_one hatAB)).1
  · exact .inl honC
  · exact .inl (t.onSides_sides (shareBetween_nonneg hatAC) (shareBetween_le_one hatAC)).2.1
  · exact .inl (t.onSides_sides (shareBetween_nonneg hatBC) (shareBetween_le_one hatBC)).2.2
  · obtain ⟨hbc, hac, hab⟩ := sideShares_pos h hatA hatB hatC hatAB hatAC hatBC
    exact .inr ⟨hab.le, hbc.le, hac.le⟩

/-- The sides of a triangle without area come as near to a place as the triangle does. -/
theorem exists_onSides_of_no_area (h : t.hasArea = false) (p : Vec3 K) (hq : t.HasPoint q) :
    ∃ w, t.OnSides w ∧ w.distSq p ≤ q.distSq p := by
  by_cases hfree : t.a = t.b ∧ 0 < along p t.a t.c
  · -- the search fails here, but the triangle is its side from the first corner to the third
    obtain ⟨u, v, hu, hv, huv, rfl⟩ := hq
    refine ⟨_, (t.onSides_sides hv (by linarith)).2.1, le_of_eq ?_⟩
    have hside : t.a + (t.c - t.a).scale v = t.pointAt u v := by
      refine Vec3.ext_get fun axis => ?_
      rw [get_pointAt, ← hfree.1, Vec3.get_add, Vec3.get_scale, Vec3.get_sub]
      ring
    rw [hside]
  · obtain ⟨-, hon, hangles⟩ := closest_of_no_area h p hfree
    exact ⟨_, hon, distSq_le_of_dot_nonpos (hq.dot_nonpos hangles)⟩

/-! ## Over the face -/

/-- On which side of the sides a place is does not depend on its height. -/
theorem sideShare_sub_areaNormal (t : Triangle K) (p : Vec3 K) (s : K) :
    sideShare (p - t.areaNormal.scale s) t.a t.b t.c = sideShare p t.a t.b t.c ∧
      sideShare (p - t.areaNormal.scale s) t.b t.c t.a = sideShare p t.b t.c t.a ∧
      sideShare (p - t.areaNormal.scale s) t.a t.c t.b = sideShare p t.a t.c t.b := by
  refine ⟨?_, ?_, ?_⟩
  all_goals
    simp only [sideShare, along, areaNormal, Vec3.normSq, Vec3.dot, Vec3.cross, Vec3.scale,
      Vec3.sub_def]
    ring

theorem OverFace.inPrism {len : K} (h : t.OverFace p) (hlen : 0 < len) (s : K) :
    t.inPrism (t.areaNormal.divide len) (p - t.areaNormal.scale s) = true := by
  obtain ⟨hab, hbc, hac⟩ := t.sideShare_sub_areaNormal p s
  rw [inPrism_iff hlen, hab, hbc, hac]
  exact h

/-- The foot by the unit normal is a foot by the area normal. -/
theorem scale_unit_normal (t : Triangle K) (height : K) :
    (t.areaNormal.divide t.areaNormal.norm).scale height =
      t.areaNormal.scale (height / t.areaNormal.norm) := by
  simp only [Vec3.divide, Vec3.scale, div_mul_eq_mul_div, mul_div_assoc]

/-- No point of a triangle is nearer to a place than its foot on the plane. -/
theorem foot_distSq_le {s : K} (hplane : (p - t.areaNormal.scale s - t.a).dot t.areaNormal = 0)
    (hq : t.HasPoint q) : (p - t.areaNormal.scale s).distSq p ≤ q.distSq p := by
  obtain ⟨u, v, -, -, -, rfl⟩ := hq
  generalize hfoot : p - t.areaNormal.scale s = foot at hplane ⊢
  have hway : p - foot = t.areaNormal.scale s := by
    refine Vec3.ext_get fun axis => ?_
    rw [← hfoot, Vec3.get_sub, Vec3.get_sub, sub_sub_cancel]
  have hinPlane : t.areaNormal.dot (t.a - t.pointAt u v) = 0 := (t.areaNormal_dot_sub_pointAt u v).1
  have hsplit : t.areaNormal.dot (t.pointAt u v - foot) =
      -t.areaNormal.dot (t.a - t.pointAt u v) - (foot - t.a).dot t.areaNormal := by
    simp only [Vec3.dot, Vec3.sub_def]
    ring
  refine distSq_le_of_dot_nonpos (le_of_eq ?_)
  rw [hway, Vec3.scale_dot, hsplit, hinPlane, hplane, neg_zero, sub_zero, mul_zero]

end Triangle

/-! ## Radii -/

variable [ExactRoot K]

theorem Vec3.dist_lt_of_distSq_le {p q center : Vec3 K} {r : K}
    (h : p.distSq center ≤ q.distSq center) (hq : q.dist center < r) : p.dist center < r := by
  rw [Vec3.dist_lt_iff] at hq ⊢
  exact ⟨hq.1, h.trans_lt hq.2⟩

/-- **A ball touches a segment if and only if** it is near one of its points. -/
theorem ballTouchesSegment_iff {center a b : Vec3 K} {r : K} :
    ballTouchesSegment center r a b = true ↔
      ∃ s, 0 ≤ s ∧ s ≤ 1 ∧ (a + (b - a).scale s).dist center < r := by
  refine ⟨exists_near_of_ballTouchesSegment, ?_⟩
  rintro ⟨s, hs, hs', hnear⟩
  have hclosest : (closestOnSegment center a b).dist center < r :=
    Vec3.dist_lt_of_distSq_le (closestOnSegment_le center a b hs hs') hnear
  rw [ballTouchesSegment, decide_eq_true hclosest, Bool.or_true]

/-- **A disc touches a segment if and only if** it is near one of its points. -/
theorem discTouchesSegment_iff {center a b : Vec2 K} {r : K} :
    discTouchesSegment center r a b = true ↔
      ∃ s, 0 ≤ s ∧ s ≤ 1 ∧ (a + (b - a).scale s - center).norm < r := by
  rw [discTouchesSegment_eq, ballTouchesSegment_iff]
  simp only [← Vec2.inSpace_sub, ← Vec2.inSpace_scale, ← Vec2.inSpace_add, Vec2.dist_inSpace]

namespace Triangle

variable {t : Triangle K} {q center : Vec3 K} {r : K}

theorem sidesTouchBall_of_onSides (hon : t.OnSides q) (hnear : q.dist center < r) :
    t.sidesTouchBall center r = true := by
  obtain ⟨e, he, s, hs, hs', rfl⟩ := hon
  exact List.any_eq_true.2 ⟨e, he, ballTouchesSegment_iff.2 ⟨s, hs, hs', hnear⟩⟩

/-- **A ball near a point of a triangle is near its plane**, so the test does not give up. -/
theorem abs_height_lt (harea : t.hasArea = true) (hq : t.HasPoint q) (hnear : q.dist center < r) :
    |(center - t.a).dot (t.areaNormal.divide t.areaNormal.norm)| < r := by
  obtain ⟨hplane, hdist⟩ := foot_spec harea center rfl rfl
  generalize (center - t.a).dot (t.areaNormal.divide t.areaNormal.norm) = height at hplane hdist ⊢
  rw [scale_unit_normal] at hplane hdist
  obtain ⟨hr, hsq⟩ :=
    Vec3.dist_lt_iff.1 (Vec3.dist_lt_of_distSq_le (foot_distSq_le hplane hq) hnear)
  rw [hdist, ← abs_mul_abs_self height] at hsq
  exact lt_of_mul_self_lt_mul_self₀ hr.le hsq

/-- **A ball touches a triangle if and only if** it is near one of its points. -/
theorem touchesBall_iff :
    t.touchesBall center r = true ↔ ∃ q, t.HasPoint q ∧ q.dist center < r := by
  refine ⟨exists_near_of_touchesBall, ?_⟩
  rintro ⟨q, hq, hnear⟩
  unfold touchesBall
  lift_lets
  extract_lets n len normal height
  split_ifs with hcorner harea hfar hprism
  · rfl
  · have hnotFar := abs_height_lt (decide_eq_true (Vec3.norm_pos_iff.1 harea)) hq hnear
    rw [Exact.abs_eq_abs] at hfar
    exact absurd hfar (not_le.2 hnotFar)
  · rfl
  · have harea' : t.hasArea = true := decide_eq_true (Vec3.norm_pos_iff.1 harea)
    rcases onSides_or_overFace harea' center with hon | hover
    · have hnearest : (t.closest center).distSq center ≤ q.distSq center :=
        distSq_le_of_dot_nonpos (hq.dot_nonpos (dot_closest_nonpos harea' center))
      exact sidesTouchBall_of_onSides hon (Vec3.dist_lt_of_distSq_le hnearest hnear)
    · have hinside := hover.inPrism harea (height / len)
      rw [← scale_unit_normal] at hinside
      exact absurd hinside hprism
  · have hflat : t.hasArea = false := decide_eq_false fun hsq => harea (Vec3.norm_pos_iff.2 hsq)
    obtain ⟨w, hon, hle⟩ := exists_onSides_of_no_area hflat center hq
    exact sidesTouchBall_of_onSides hon (Vec3.dist_lt_of_distSq_le hle hnear)

end Triangle

/-! ## Main result -/

/-- **The overlap tests are exact**, for every center, every radius and every shape: a disc touches a
segment of the plane, and a ball a segment or a triangle, if and only if some point of the shape is
nearer to the center than the radius. The radius may be zero or negative, the segment may have no length
and the triangle no area. -/
theorem overlap_tests_exact :
    (∀ (center : Vec2 K) (r : K) (a b : Vec2 K), discTouchesSegment center r a b = true ↔
      ∃ s, 0 ≤ s ∧ s ≤ 1 ∧ (a + (b - a).scale s - center).norm < r) ∧
    (∀ (center : Vec3 K) (r : K) (a b : Vec3 K), ballTouchesSegment center r a b = true ↔
      ∃ s, 0 ≤ s ∧ s ≤ 1 ∧ (a + (b - a).scale s).dist center < r) ∧
    ∀ (t : Triangle K) (center : Vec3 K) (r : K), t.touchesBall center r = true ↔
      ∃ q, t.HasPoint q ∧ q.dist center < r :=
  ⟨fun _ _ _ _ => discTouchesSegment_iff, fun _ _ _ _ => ballTouchesSegment_iff,
    fun _ _ _ => Triangle.touchesBall_iff⟩

/-- A triangle whose first two corners are one point. -/
noncomputable def pin : Triangle ℝ := ⟨⟨0, 0, 0⟩, ⟨0, 0, 0⟩, ⟨1, 0, 0⟩⟩

/-- A disc and a ball that are tangent do not touch, nor does a ball without radius around a point of the
pin; a ball a little larger than the tangent one does. -/
theorem overlap_tests_at_tangency :
    discTouchesSegment (⟨0, 1⟩ : Vec2 ℝ) 1 ⟨-1, 0⟩ ⟨1, 0⟩ = false ∧
    ballTouchesSegment (⟨3, 4, 0⟩ : Vec3 ℝ) 5 ⟨0, 0, 0⟩ ⟨0, 0, 0⟩ = false ∧
    pin.touchesBall ⟨1 / 2, 1, 0⟩ 1 = false ∧ pin.touchesBall ⟨1 / 2, 0, 0⟩ 0 = false ∧
    pin.touchesBall ⟨1 / 2, 1, 0⟩ (9 / 8) = true := by
  obtain ⟨hdisc, hsegment, htriangle⟩ := overlap_tests_exact (K := ℝ)
  refine ⟨?_, ?_, ?_, ?_, ?_⟩
  · refine Bool.eq_false_iff.2 fun htouch => ?_
    obtain ⟨s, -, -, hnear⟩ := (hdisc _ _ _ _).1 htouch
    rw [← Vec2.dist_inSpace, Vec3.dist_lt_iff] at hnear
    norm_num [Vec2.inSpace, Vec2.scale, Vec2.add_def, Vec2.sub_def, Vec3.distSq, Vec3.normSq, Vec3.dot,
      Vec3.sub_def] at hnear
    nlinarith [sq_nonneg (-1 + 2 * s)]
  · refine Bool.eq_false_iff.2 fun htouch => ?_
    obtain ⟨s, -, -, hnear⟩ := (hsegment _ _ _ _).1 htouch
    rw [Vec3.dist_lt_iff] at hnear
    norm_num [Vec3.distSq, Vec3.normSq, Vec3.dot, Vec3.scale, Vec3.add_def, Vec3.sub_def] at hnear
  · refine Bool.eq_false_iff.2 fun htouch => ?_
    obtain ⟨q, ⟨u, v, -, -, -, rfl⟩, hnear⟩ := (htriangle _ _ _).1 htouch
    rw [Vec3.dist_lt_iff] at hnear
    norm_num [pin, Triangle.pointAt, Vec3.distSq, Vec3.normSq, Vec3.dot, Vec3.scale, Vec3.add_def,
      Vec3.sub_def] at hnear
    nlinarith [sq_nonneg (v - 1 / 2)]
  · refine Bool.eq_false_iff.2 fun htouch => ?_
    obtain ⟨q, -, hnear⟩ := (htriangle _ _ _).1 htouch
    exact absurd (Vec3.dist_lt_iff.1 hnear).1 (lt_irrefl 0)
  · refine (htriangle _ _ _).2 ⟨⟨1 / 2, 0, 0⟩, ⟨0, 1 / 2, by norm_num, by norm_num, by norm_num, ?_⟩, ?_⟩
    · norm_num [pin, Triangle.pointAt, Vec3.scale, Vec3.add_def, Vec3.sub_def]
    · rw [Vec3.dist_lt_iff]
      norm_num [Vec3.distSq, Vec3.normSq, Vec3.dot, Vec3.sub_def]

end Isomesh
