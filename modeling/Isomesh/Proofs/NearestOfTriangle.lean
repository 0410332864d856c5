import Mathlib
import Isomesh.Proofs.CheckedNumbers
import Isomesh.Proofs.ClosestPoint

/-!
# The point that the search finds is the nearest of the triangle

A point of a convex figure is the nearest to `p` when the way from it to `p` makes no acute angle with the
way to any other point of the figure. In a triangle it is enough to look at the three corners. Each region
that the search tries has its reason: behind a corner the angles with both sides are not acute, at a side
the angle with the side is right and the third corner is on the other side, and over the face all angles
are right.

* `distSq_le_of_dot_nonpos`, `Triangle.HasPoint.dot_nonpos`: the criterion, and that corners suffice.
* `AtSide.dot_nonpos`: the foot on a side.
* `Triangle.dot_closest_nonpos`: the search, region by region.
* `Triangle.closest_checked_regions`, `Triangle.closest_checked_of_hasArea`: the search does not divide by
  zero.
* `Triangle.closest_is_nearest`: the main result.
-/

set_option autoImplicit false

namespace Isomesh

open Checked

variable {K : Type} [Field K] [LinearOrder K] [IsStrictOrderedRing K] [FloorRing K] [SquareRoot K]

/-! ## Angles -/

theorem Vec3.scale_dot (u v : Vec3 K) (s : K) : (u.scale s).dot v = s * u.dot v := by
  simp only [dot, scale]
  ring

/-- A point is no nearer to `p` than `c` if the angle at `c` is not acute. -/
theorem distSq_le_of_dot_nonpos {p c q : Vec3 K} (h : (p - c).dot (q - c) ≤ 0) :
    c.distSq p ≤ q.distSq p := by
  have hexpand : q.distSq p = c.distSq p + (q - c).normSq - 2 * (p - c).dot (q - c) := by
    simp only [Vec3.distSq, Vec3.normSq, Vec3.dot, Vec3.sub_def]
    ring
  have hsq := (q - c).normSq_nonneg
  linarith

/-- The points of a triangle are on one side of a plane if its corners are. -/
theorem Triangle.HasPoint.dot_nonpos {t : Triangle K} {n c q : Vec3 K} (hq : t.HasPoint q)
    (h : ∀ v ∈ t.corners, n.dot (v - c) ≤ 0) : n.dot (q - c) ≤ 0 := by
  obtain ⟨u, v, hu, hv, huv, rfl⟩ := hq
  simp only [corners, List.forall_mem_cons, List.not_mem_nil, false_imp_iff, implies_true,
    and_true] at h
  obtain ⟨ha, hb, hc⟩ := h
  have hexpand : n.dot (t.pointAt u v - c) =
      (1 - u - v) * n.dot (t.a - c) + u * n.dot (t.b - c) + v * n.dot (t.c - c) := by
    simp only [pointAt, Vec3.dot, Vec3.scale, Vec3.add_def, Vec3.sub_def]
    ring
  have hw : 0 ≤ 1 - u - v := by linarith
  have h1 := mul_nonpos_of_nonneg_of_nonpos hw ha
  have h2 := mul_nonpos_of_nonneg_of_nonpos hu hb
  have h3 := mul_nonpos_of_nonneg_of_nonpos hv hc
  linarith

/-! ## Sides -/

theorem along_add_along (p x y : Vec3 K) : along p x y + along p y x = (y - x).normSq := by
  simp only [along, Vec3.normSq, Vec3.dot, Vec3.sub_def]
  ring

/-- **The foot on a side** sees `p` at a right angle to the side, and the corner across at no acute
angle. -/
theorem AtSide.dot_nonpos {p x y z : Vec3 K} (h : AtSide p x y z) (hxy : 0 < (y - x).normSq) :
    let foot := x + (y - x).scale (shareBetween p x y)
    (p - foot).dot (x - foot) ≤ 0 ∧ (p - foot).dot (y - foot) ≤ 0 ∧ (p - foot).dot (z - foot) ≤ 0 := by
  intro foot
  have hshare : shareBetween p x y * (y - x).normSq = along p x y := by
    rw [shareBetween, along_add_along, div_mul_cancel₀ _ hxy.ne']
  have hright : (p - foot).dot (y - x) = along p x y - shareBetween p x y * (y - x).normSq := by
    simp only [foot, along, Vec3.normSq, Vec3.dot, Vec3.scale, Vec3.add_def, Vec3.sub_def]
    ring
  rw [hshare, sub_self] at hright
  have hx : (p - foot).dot (x - foot) = -shareBetween p x y * (p - foot).dot (y - x) := by
    simp only [foot, Vec3.dot, Vec3.scale, Vec3.add_def, Vec3.sub_def]
    ring
  have hy : (p - foot).dot (y - foot) = (1 - shareBetween p x y) * (p - foot).dot (y - x) := by
    simp only [foot, Vec3.dot, Vec3.scale, Vec3.add_def, Vec3.sub_def]
    ring
  have hz : (p - foot).dot (z - foot) = along p x z - shareBetween p x y * (y - x).dot (z - x) -
      shareBetween p x y * (p - foot).dot (y - x) := by
    simp only [foot, along, Vec3.dot, Vec3.scale, Vec3.add_def, Vec3.sub_def]
    ring
  rw [hright, mul_zero] at hx hy hz
  refine ⟨hx.le, hy.le, ?_⟩
  have hacross : (y - x).normSq * (p - foot).dot (z - foot) = sideShare p x y z := by
    rw [hz, sideShare]
    linear_combination (-(y - x).dot (z - x)) * hshare
  exact nonpos_of_mul_nonpos_right (hacross ▸ h.1) hxy

namespace Triangle

variable {t : Triangle K}

/-- The squared lengths of the three sides of a triangle with area are positive. -/
theorem normSq_sides_pos (h : t.hasArea = true) :
    0 < (t.b - t.a).normSq ∧ 0 < (t.c - t.a).normSq ∧ 0 < (t.c - t.b).normSq := by
  have habc : 0 < spread t.a t.b t.c := spread_pos h
  have hacb : 0 < spread t.a t.c t.b := by rwa [spread_comm]
  have hbca : 0 < spread t.b t.c t.a := by rwa [spread_comm, spread_swap]
  exact ⟨normSq_pos_of_spread_pos habc, normSq_pos_of_spread_pos hacb, normSq_pos_of_spread_pos hbca⟩

/-- The area normal is at right angles to the triangle. -/
theorem areaNormal_dot_sub_pointAt (t : Triangle K) (u v : K) :
    t.areaNormal.dot (t.a - t.pointAt u v) = 0 ∧ t.areaNormal.dot (t.b - t.pointAt u v) = 0 ∧
      t.areaNormal.dot (t.c - t.pointAt u v) = 0 := by
  refine ⟨?_, ?_, ?_⟩
  all_goals
    simp only [pointAt, areaNormal, Vec3.dot, Vec3.cross, Vec3.scale, Vec3.add_def, Vec3.sub_def]
    ring

/-! ## The search, region by region -/

/-- **From the point that the search finds** no corner is at an acute angle with `p`. -/
theorem dot_closest_nonpos (h : t.hasArea = true) (p : Vec3 K) :
    ∀ v ∈ t.corners, (p - t.closest p).dot (v - t.closest p) ≤ 0 := by
  have hself (x : Vec3 K) : (p - x).dot (x - x) ≤ 0 := by simp [Vec3.dot, Vec3.sub_def]
  have hbehind {x y : Vec3 K} (hxy : along p x y ≤ 0) : (p - x).dot (y - x) ≤ 0 := by
    rwa [Vec3.dot_comm]
  obtain ⟨hab, hac, hbc⟩ := normSq_sides_pos h
  simp only [corners, List.forall_mem_cons, List.not_mem_nil, false_imp_iff, implies_true, and_true]
  rw [closest_eq h]
  split_ifs with hatA hatB hatAB hatC hatAC hatBC
  · exact ⟨hself _, hbehind hatA.1, hbehind hatA.2⟩
  · exact ⟨hbehind hatB.1, hself _, hbehind hatB.2⟩
  · exact hatAB.dot_nonpos hab
  · exact ⟨hbehind hatC.1, hbehind hatC.2, hself _⟩
  · obtain ⟨ha, hc, hb⟩ := hatAC.dot_nonpos hac
    exact ⟨ha, hb, hc⟩
  · obtain ⟨hb, hc, ha⟩ := hatBC.dot_nonpos hbc
    exact ⟨ha, hb, hc⟩
  · -- over the face, the way to `p` is along the area normal
    have hfoot := pointAt_sideShare (spread_pos h) p
    generalize (p - t.a).dot t.areaNormal / spread t.a t.b t.c = height at hfoot
    generalize sideShare p t.a t.c t.b / spread t.a t.b t.c = u at hfoot ⊢
    generalize sideShare p t.a t.b t.c / spread t.a t.b t.c = v at hfoot ⊢
    have hway : p - t.pointAt u v = t.areaNormal.scale height := by
      refine Vec3.ext_get fun axis => ?_
      rw [hfoot, Vec3.get_sub, Vec3.get_sub, sub_sub_cancel]
    obtain ⟨ha, hb, hc⟩ := t.areaNormal_dot_sub_pointAt u v
    rw [hway, Vec3.scale_dot, Vec3.scale_dot, Vec3.scale_dot, ha, hb, hc, mul_zero]
    exact ⟨le_rfl, le_rfl, le_rfl⟩

/-! ## Divisions -/

/-- **The search over checked numbers**, by the regions it tries. -/
theorem closest_checked_regions (t : Triangle K) (p : Vec3 K) : t.checked.closest p.checked =
    if AtCorner p t.a t.b t.c then t.a.checked
    else if AtCorner p t.b t.a t.c then t.b.checked
    else if AtSide p t.a t.b t.c then
      t.a.checked + (t.b - t.a).checked.scale
        (value (along p t.a t.b) / value (along p t.a t.b + along p t.b t.a))
    else if AtCorner p t.c t.a t.b then t.c.checked
    else if AtSide p t.a t.c t.b then
      t.a.checked + (t.c - t.a).checked.scale
        (value (along p t.a t.c) / value (along p t.a t.c + along p t.c t.a))
    else if AtSide p t.b t.c t.a then
      t.b.checked + (t.c - t.b).checked.scale
        (value (along p t.b t.c) / value (along p t.b t.c + along p t.c t.b))
    else if Scalar.isZero (spread t.a t.b t.c) then t.checked.closestOnSides p.checked
    else t.a.checked +
      (t.b - t.a).checked.scale (value (sideShare p t.a t.c t.b) / value (spread t.a t.b t.c)) +
      (t.c - t.a).checked.scale (value (sideShare p t.a t.b t.c) / value (spread t.a t.b t.c)) := by
  rw [closest]
  simp only [checked, Vec3.checked_sub, Vec3.checked_dot, value_sub, value_mul, value_add, zero_eq,
    value_le_iff, isZero_value, shareAcross_ab, shareAcross_ac, shareAcross_bc, dot_le_iff_along,
    dot_sub_dot_eq_along, sideShare_add]
  simp only [dot_sub_end, neg_nonneg, neg_nonpos, sub_neg_eq_add]
  rfl

/-- The foot on a side with a length. -/
theorem checked_foot {p x y : Vec3 K} (hxy : 0 < (y - x).normSq) :
    x.checked + (y - x).checked.scale (value (along p x y) / value (along p x y + along p y x)) =
      (x + (y - x).scale (shareBetween p x y)).checked := by
  have hnonzero : ¬Scalar.isZero (along p x y + along p y x) = true := fun hzero =>
    hxy.ne' ((along_add_along p x y).symm.trans (Exact.isZero_iff.1 hzero))
  rw [value_div _ hnonzero, Vec3.checked_scale, Vec3.checked_add, shareBetween]

/-- **The search does not divide by zero** on a triangle with area: over checked numbers it finds the
same point. -/
theorem closest_checked_of_hasArea (h : t.hasArea = true) (p : Vec3 K) :
    t.checked.closest p.checked = (t.closest p).checked := by
  obtain ⟨hab, hac, hbc⟩ := normSq_sides_pos h
  have hnonzero : ¬Scalar.isZero (spread t.a t.b t.c) = true := fun hzero =>
    (spread_pos h).ne' (Exact.isZero_iff.1 hzero)
  rw [closest_checked_regions, closest_eq h, if_neg hnonzero, checked_foot hab, checked_foot hac,
    checked_foot hbc, value_div _ hnonzero, value_div _ hnonzero]
  simp only [Vec3.checked_scale, Vec3.checked_add, pointAt, apply_ite Vec3.checked]

/-- **The nearest point of a triangle with area**, for every place. The search does not divide by zero on
its way, the point that it finds is a convex combination of the corners, and no point of the triangle is
nearer. -/
theorem closest_is_nearest (h : t.hasArea = true) (p : Vec3 K) :
    t.checked.closest p.checked = (t.closest p).checked ∧
      (∃ u v w, 0 ≤ u ∧ 0 ≤ v ∧ 0 ≤ w ∧ u + v + w = 1 ∧
        t.closest p = t.a.scale u + t.b.scale v + t.c.scale w) ∧
      ∀ q, t.HasPoint q → (t.closest p).distSq p ≤ q.distSq p := by
  refine ⟨closest_checked_of_hasArea h p, ?_, fun q hq => ?_⟩
  · obtain ⟨v, w, hv, hw, hvw, hpoint⟩ := hasPoint_closest h p
    refine ⟨1 - v - w, v, w, by linarith, hv, hw, by ring, ?_⟩
    rw [hpoint]
    refine Vec3.ext_get fun axis => ?_
    simp only [get_pointAt, Vec3.get_add, Vec3.get_scale]
    ring
  · exact distSq_le_of_dot_nonpos (hq.dot_nonpos (dot_closest_nonpos h p))

/-- A sliver with an obtuse angle at its first corner. -/
def sliver : Triangle ℚ := ⟨⟨0, 0, 0⟩, ⟨10, 1, 0⟩, ⟨-9, 1, 0⟩⟩

/-- A place above the plane and beyond the longest side, where the nearest point is. -/
theorem closest_is_nearest_on_sliver : sliver.hasArea = true ∧
    sliver.closest ⟨1, 7, 2⟩ = ⟨1, 1, 0⟩ ∧
    sliver.checked.closest (Vec3.checked ⟨1, 7, 2⟩) = Vec3.checked ⟨1, 1, 0⟩ ∧
    ∀ q, sliver.HasPoint q → 40 ≤ q.distSq ⟨1, 7, 2⟩ := by
  have harea : sliver.hasArea = true := by decide +kernel
  have hclosest : sliver.closest ⟨1, 7, 2⟩ = ⟨1, 1, 0⟩ := by decide +kernel
  obtain ⟨hchecked, -, hleast⟩ := closest_is_nearest harea ⟨1, 7, 2⟩
  rw [hclosest] at hchecked hleast
  have hdist : (⟨1, 1, 0⟩ : Vec3 ℚ).distSq ⟨1, 7, 2⟩ = 40 := by decide +kernel
  exact ⟨harea, hclosest, hchecked, fun q hq => hdist ▸ hleast q hq⟩

end Triangle

end Isomesh
