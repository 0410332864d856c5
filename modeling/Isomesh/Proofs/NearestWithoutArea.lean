import Mathlib
import Isomesh.Proofs.NearestOfTriangle

/-!
# The nearest point of a triangle without area

The corners of a triangle without area are on one line, and no place is beyond any of its sides. The
search does not come to the case that is meant for such triangles: every place is behind a corner, or over
a side that it tries before. What it finds there is right as long as the side has a length. A side without
length is tried only if the first two corners are one point and the place is ahead of them on the way to
the third. Then the search divides zero by zero.

* `Triangle.sideShare_eq_zero`, `Triangle.atSide_of_no_area`: the regions of a triangle without area.
* `Triangle.closest_of_no_area`: the search where it finds a point.
* `Triangle.closest_checked_of_eq`: the search where it does not.
* `Triangle.closest_is_nearest_iff_of_no_area`: the main result.
-/

set_option autoImplicit false

namespace Isomesh

open Checked

variable {K : Type} [Field K] [LinearOrder K] [IsStrictOrderedRing K] [FloorRing K] [SquareRoot K]

/-! ## Places and corners on a line -/

theorem sideShare_eq_dot_cross (p x y z : Vec3 K) :
    sideShare p x y z = ((y - x).cross (z - x)).dot ((y - x).cross (p - x)) := by
  simp only [sideShare, along, Vec3.normSq, Vec3.dot, Vec3.cross, Vec3.sub_def]
  ring

theorem along_self (p x : Vec3 K) : along p x x = 0 := by simp [along, Vec3.dot, Vec3.sub_def]

theorem Vec3.normSq_sub_pos {x y : Vec3 K} (h : y ≠ x) : 0 < (y - x).normSq :=
  (y - x).normSq_nonneg.lt_of_ne' fun hzero => h (eq_of_normSq_sub_eq_zero hzero)

theorem normSq_pos_of_along_ne_zero {p x y : Vec3 K} (h : along p x y ≠ 0) : 0 < (y - x).normSq :=
  Vec3.normSq_sub_pos fun heq => h (heq ▸ along_self p y)

/-- A place in no region is not behind `x` on the side to `y`. -/
theorem along_nonneg_of_sideShare_eq_zero {p x y z : Vec3 K} (hxyz : sideShare p x y z = 0)
    (hxzy : sideShare p x z y = 0) (hx : ¬AtCorner p x y z) (hxz : ¬AtSide p x z y)
    (hz : ¬AtCorner p z x y) : 0 ≤ along p x y := by
  by_contra hneg
  have hxy : along p x y < 0 := not_le.1 hneg
  have hxz' : 0 < along p x z := not_le.1 fun h => hx ⟨hxy.le, h⟩
  have hzx : along p z x < 0 := not_le.1 fun h => hxz ⟨hxzy.le, hxz'.le, h⟩
  have hzy : 0 < along p z y := not_le.1 fun h => hz ⟨hzx.le, h⟩
  -- each of `x` and `z` would be between the other two corners
  have hatx : (y - x).dot (z - x) < 0 :=
    dot_neg_of_sideShare_nonpos (normSq_pos_of_along_ne_zero hxy.ne) hxyz.le hxy hxz'
  have hatz : (x - z).dot (y - z) < 0 := by
    refine dot_neg_of_sideShare_nonpos (normSq_pos_of_along_ne_zero hzx.ne) ?_ hzx hzy
    rw [sideShare_swap, hxzy]
  have hsum : (y - x).dot (z - x) + (x - z).dot (y - z) = (z - x).normSq := by
    simp only [Vec3.normSq, Vec3.dot, Vec3.sub_def]
    ring
  have := (z - x).normSq_nonneg
  linarith

/-- Where the third corner is one of the ends, a place is behind an end or over the side. -/
theorem atSide_of_eq {p x y z : Vec3 K} (hz : z = x ∨ z = y) (hxyz : sideShare p x y z = 0)
    (hx : ¬AtCorner p x y z) (hy : ¬AtCorner p y x z) : AtSide p x y z := by
  rcases hz with rfl | rfl
  · have hzy : 0 < along p z y := not_le.1 fun h => hx ⟨h, (along_self p z).le⟩
    have hyz : 0 < along p y z := not_le.1 fun h => hy ⟨h, h⟩
    exact ⟨hxyz.le, hzy.le, hyz.le⟩
  · have hxz : 0 < along p x z := not_le.1 fun h => hx ⟨h, h⟩
    have hzx : 0 < along p z x := not_le.1 fun h => hy ⟨h, (along_self p z).le⟩
    exact ⟨hxyz.le, hxz.le, hzx.le⟩

namespace Triangle

/-- Whether a point is on one of the sides, their ends included. -/
def OnSides (t : Triangle K) (q : Vec3 K) : Prop :=
  ∃ e ∈ t.sides, ∃ s, 0 ≤ s ∧ s ≤ 1 ∧ q = e.1 + (e.2 - e.1).scale s

theorem onSides_corners (t : Triangle K) : t.OnSides t.a ∧ t.OnSides t.b ∧ t.OnSides t.c := by
  have hstart (x y : Vec3 K) : x = x + (y - x).scale 0 := by
    refine Vec3.ext_get fun axis => ?_
    rw [Vec3.get_add, Vec3.get_scale, mul_zero, add_zero]
  exact ⟨⟨(t.a, t.b), by simp [sides], 0, le_rfl, zero_le_one, hstart _ _⟩,
    ⟨(t.b, t.c), by simp [sides], 0, le_rfl, zero_le_one, hstart _ _⟩,
    ⟨(t.c, t.a), by simp [sides], 0, le_rfl, zero_le_one, hstart _ _⟩⟩

theorem onSides_sides (t : Triangle K) {s : K} (hs : 0 ≤ s) (hs' : s ≤ 1) :
    t.OnSides (t.a + (t.b - t.a).scale s) ∧ t.OnSides (t.a + (t.c - t.a).scale s) ∧
      t.OnSides (t.b + (t.c - t.b).scale s) := by
  have hturned : t.a + (t.c - t.a).scale s = t.c + (t.a - t.c).scale (1 - s) := by
    refine Vec3.ext_get fun axis => ?_
    simp only [Vec3.get_add, Vec3.get_sub, Vec3.get_scale]
    ring
  exact ⟨⟨(t.a, t.b), by simp [sides], s, hs, hs', rfl⟩,
    ⟨(t.c, t.a), by simp [sides], 1 - s, sub_nonneg.2 hs', sub_le_self 1 hs, hturned⟩,
    ⟨(t.b, t.c), by simp [sides], s, hs, hs', rfl⟩⟩

variable {t : Triangle K} {p : Vec3 K}

/-! ## Regions -/

/-- No place is beyond a side of a triangle without area. -/
theorem sideShare_eq_zero (h : t.hasArea = false) (p : Vec3 K) :
    sideShare p t.a t.b t.c = 0 ∧ sideShare p t.a t.c t.b = 0 ∧ sideShare p t.b t.c t.a = 0 := by
  have hsq : t.areaNormal.normSq = 0 :=
    le_antisymm (not_lt.1 (of_decide_eq_false h)) t.areaNormal.normSq_nonneg
  obtain ⟨hx, hy, hz⟩ := Vec3.eq_zero_of_normSq_eq_zero hsq
  have hdot (v : Vec3 K) : t.areaNormal.dot v = 0 := by simp [Vec3.dot, hx, hy, hz]
  refine ⟨?_, ?_, ?_⟩
  · exact (sideShare_eq_dot_cross ..).trans (hdot _)
  · rw [sideShare_eq_dot_cross, ← neg_eq_zero, ← hdot ((t.c - t.a).cross (p - t.a))]
    simp only [areaNormal, Vec3.dot, Vec3.cross, Vec3.sub_def]
    ring
  · rw [sideShare_eq_dot_cross, ← hdot ((t.c - t.b).cross (p - t.b))]
    simp only [areaNormal, Vec3.dot, Vec3.cross, Vec3.sub_def]
    ring

/-- **Every place is in a region** of a triangle without area. -/
theorem atSide_of_no_area (h : t.hasArea = false) (ha : ¬AtCorner p t.a t.b t.c)
    (hb : ¬AtCorner p t.b t.a t.c) (hc : ¬AtCorner p t.c t.a t.b) (hac : ¬AtSide p t.a t.c t.b)
    (hbc : ¬AtSide p t.b t.c t.a) : AtSide p t.a t.b t.c := by
  obtain ⟨habc, hacb, hbca⟩ := sideShare_eq_zero h p
  refine ⟨habc.le, along_nonneg_of_sideShare_eq_zero habc hacb ha hac hc, ?_⟩
  exact along_nonneg_of_sideShare_eq_zero ((sideShare_swap ..).trans habc) hbca hb hbc (mt And.symm hc)

/-! ## The search -/

/-- **The search on a triangle without area**, region by region. -/
theorem closest_of_no_area (h : t.hasArea = false) (p : Vec3 K)
    (hfree : ¬(t.a = t.b ∧ 0 < along p t.a t.c)) :
    t.checked.closest p.checked = (t.closest p).checked ∧ t.OnSides (t.closest p) ∧
      ∀ v ∈ t.corners, (p - t.closest p).dot (v - t.closest p) ≤ 0 := by
  have hself (x : Vec3 K) : (p - x).dot (x - x) ≤ 0 := by simp [Vec3.dot, Vec3.sub_def]
  have hbehind {x y : Vec3 K} (hxy : along p x y ≤ 0) : (p - x).dot (y - x) ≤ 0 := by
    rwa [Vec3.dot_comm]
  obtain ⟨habc, -, -⟩ := sideShare_eq_zero h p
  obtain ⟨honA, honB, honC⟩ := t.onSides_corners
  simp only [corners, List.forall_mem_cons, List.not_mem_nil, false_imp_iff, implies_true, and_true]
  rw [closest_checked_regions, closest_regions]
  split_ifs with hatA hatB hatAB hatC hatAC hatBC
  · exact ⟨rfl, honA, hself _, hbehind hatA.1, hbehind hatA.2⟩
  · exact ⟨rfl, honB, hbehind hatB.1, hself _, hbehind hatB.2⟩
  · have hpos : 0 < (t.b - t.a).normSq := by
      refine Vec3.normSq_sub_pos fun heq => hfree ⟨heq.symm, not_le.1 fun hac => hatA ⟨?_, hac⟩⟩
      rw [heq, along_self]
    have hon := (t.onSides_sides (shareBetween_nonneg hatAB) (shareBetween_le_one hatAB)).1
    exact ⟨checked_foot hpos, hon, hatAB.dot_nonpos hpos⟩
  · exact ⟨rfl, honC, hbehind hatC.1, hbehind hatC.2, hself _⟩
  · have hpos : 0 < (t.c - t.a).normSq :=
      Vec3.normSq_sub_pos fun heq => hatAB (atSide_of_eq (.inl heq) habc hatA hatB)
    have hon := (t.onSides_sides (shareBetween_nonneg hatAC) (shareBetween_le_one hatAC)).2.1
    obtain ⟨ha, hc, hb⟩ := hatAC.dot_nonpos hpos
    exact ⟨checked_foot hpos, hon, ha, hb, hc⟩
  · have hpos : 0 < (t.c - t.b).normSq :=
      Vec3.normSq_sub_pos fun heq => hatAB (atSide_of_eq (.inr heq) habc hatA hatB)
    have hon := (t.onSides_sides (shareBetween_nonneg hatBC) (shareBetween_le_one hatBC)).2.2
    obtain ⟨hb, hc, ha⟩ := hatBC.dot_nonpos hpos
    exact ⟨checked_foot hpos, hon, ha, hb, hc⟩
  -- the last case of the search, with the sides or the foot, is not reached
  · exact absurd (atSide_of_no_area h hatA hatB hatC hatAC hatBC) hatAB
  · exact absurd (atSide_of_no_area h hatA hatB hatC hatAC hatBC) hatAB

/-- **Ahead of a doubled first corner** the search divides zero by zero. -/
theorem closest_checked_of_eq (hab : t.a = t.b) (hahead : 0 < along p t.a t.c) :
    t.checked.closest p.checked = ⟨undefined, undefined, undefined⟩ := by
  have hzero : along p t.a t.b = 0 := by rw [hab, along_self]
  have hzero' : along p t.b t.a = 0 := by rw [hab, along_self]
  have hside : AtSide p t.a t.b t.c := by
    refine ⟨?_, hzero.ge, hzero'.ge⟩
    rw [sideShare_eq, hzero, hzero', zero_mul, zero_mul, add_zero]
  have hquotient : value (along p t.a t.b) / value (along p t.a t.b + along p t.b t.a) = undefined := by
    refine if_pos (Exact.isZero_iff.2 ?_)
    rw [hzero, hzero', add_zero]
  rw [closest_checked_regions, if_neg fun h => absurd h.2 (not_le.2 hahead),
    if_neg fun h => absurd h.2 (hab ▸ not_le.2 hahead), if_pos hside, hquotient]
  rfl

/-- **The nearest point of a triangle without area**, for every place. The search finds it on a side,
without a division by zero, unless the first two corners are one point and the place is ahead of them on
the way to the third. -/
theorem closest_is_nearest_iff_of_no_area (h : t.hasArea = false) (p : Vec3 K) :
    (t.checked.closest p.checked = (t.closest p).checked ∧ t.OnSides (t.closest p) ∧
        ∀ q, t.HasPoint q → (t.closest p).distSq p ≤ q.distSq p) ↔
      ¬(t.a = t.b ∧ 0 < (t.c - t.a).dot (p - t.a)) := by
  constructor
  · rintro ⟨hchecked, -⟩ ⟨hab, hahead⟩
    rw [closest_checked_of_eq hab hahead] at hchecked
    cases hchecked
  · intro hfree
    obtain ⟨hchecked, honsides, hangles⟩ := closest_of_no_area h p hfree
    exact ⟨hchecked, honsides, fun q hq => distSq_le_of_dot_nonpos (hq.dot_nonpos hangles)⟩

/-- A needle whose first corner is between the other two. -/
def needle : Triangle ℚ := ⟨⟨0, 0, 0⟩, ⟨2, 2, 0⟩, ⟨-4, -4, 0⟩⟩

/-- A place over the longer part of the needle. -/
theorem closest_is_nearest_on_needle : needle.hasArea = false ∧
    needle.closest ⟨-3, -1, 4⟩ = ⟨-2, -2, 0⟩ ∧
    needle.checked.closest (Vec3.checked ⟨-3, -1, 4⟩) = Vec3.checked ⟨-2, -2, 0⟩ ∧
    ∀ q, needle.HasPoint q → 18 ≤ q.distSq ⟨-3, -1, 4⟩ := by
  have harea : needle.hasArea = false := by decide +kernel
  have hclosest : needle.closest ⟨-3, -1, 4⟩ = ⟨-2, -2, 0⟩ := by decide +kernel
  obtain ⟨hchecked, -, hleast⟩ :=
    (closest_is_nearest_iff_of_no_area harea ⟨-3, -1, 4⟩).2 (by decide +kernel)
  rw [hclosest] at hchecked hleast
  have hdist : (⟨-2, -2, 0⟩ : Vec3 ℚ).distSq ⟨-3, -1, 4⟩ = 18 := by decide +kernel
  exact ⟨harea, hclosest, hchecked, fun q hq => hdist ▸ hleast q hq⟩

/-- **The search can fail on a triangle without area**: the first two corners are the origin, and the
nearest point is halfway to the third. -/
theorem not_closest_is_nearest_of_no_area :
    ¬∀ (t : Triangle ℚ) (p : Vec3 ℚ), t.hasArea = false →
      t.checked.closest p.checked = (t.closest p).checked ∧ t.OnSides (t.closest p) ∧
        ∀ q, t.HasPoint q → (t.closest p).distSq p ≤ q.distSq p := by
  intro hall
  obtain ⟨hchecked, -⟩ := hall ⟨⟨0, 0, 0⟩, ⟨0, 0, 0⟩, ⟨2, 0, 0⟩⟩ ⟨1, 1, 0⟩ (by decide +kernel)
  revert hchecked
  decide +kernel

end Triangle

end Isomesh
