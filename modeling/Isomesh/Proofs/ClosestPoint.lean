import Mathlib
import Isomesh.Proofs.PulledTriangles
import Isomesh.Proofs.TreeBounds

/-!
# The nearest point belongs to the triangle

The search for the nearest point of a triangle tries the regions of the corners and sides in turn, and
takes the foot of the perpendicular where none applies. In exact arithmetic that foot is inside the
triangle then: a point beyond a side, but in no region there, would see obtuse angles at two corners.

* `along`, `sideShare`: how a point lies to a side.
* `sideShare_pos`: a point in no region is beyond no side.
* `Triangle.closest_regions`: the search, by the regions it tries.
* `Triangle.hasPoint_closest`: the main result.
-/

set_option autoImplicit false

namespace Isomesh

variable {K : Type} [Field K] [LinearOrder K] [IsStrictOrderedRing K] [FloorRing K] [SquareRoot K]

/-! ## How a point lies to a side -/

/-- How far `p` is along the side from `x` to `y`, as seen from `x`; negative behind `x`. -/
def along (p x y : Vec3 K) : K := (y - x).dot (p - x)

/-- What the foot of `p` has of the corner `z`, in proportion to `spread x y z`; negative where `p` is
beyond the side from `x` to `y`. -/
def sideShare (p x y z : Vec3 K) : K :=
  (y - x).normSq * along p x z - (y - x).dot (z - x) * along p x y

/-- The squared length of the area normal, from the two sides at a corner. -/
def spread (x y z : Vec3 K) : K :=
  (y - x).normSq * (z - x).normSq - (y - x).dot (z - x) * (y - x).dot (z - x)

theorem dot_sub_end (p x y : Vec3 K) : (y - x).dot (p - y) = -along p y x := by
  simp only [along, Vec3.dot, Vec3.sub_def]
  ring

theorem sideShare_eq (p x y z : Vec3 K) : sideShare p x y z =
    along p x y * (along p y z - along p y x) + along p y x * along p x z := by
  have hy : along p y x = (y - x).normSq - along p x y := by
    simp only [along, Vec3.normSq, Vec3.dot, Vec3.sub_def]
    ring
  have hz : along p y z - along p y x = along p x z - (y - x).dot (z - x) := by
    simp only [along, Vec3.dot, Vec3.sub_def]
    ring
  rw [hz, hy, sideShare]
  ring

theorem sideShare_swap (p x y z : Vec3 K) : sideShare p y x z = sideShare p x y z := by
  simp only [sideShare, along, Vec3.normSq, Vec3.dot, Vec3.sub_def]
  ring

theorem sideShare_add (p x y z : Vec3 K) :
    sideShare p y z x + sideShare p x z y + sideShare p x y z = spread x y z := by
  simp only [sideShare, spread, along, Vec3.normSq, Vec3.dot, Vec3.sub_def]
  ring

/-! What the search computes for the sides from `x` to `y`, from `x` to `z` and from `y` to `z`. -/

theorem shareAcross_ab (p x y z : Vec3 K) : (y - x).dot (p - x) * (z - x).dot (p - y) -
    (y - x).dot (p - y) * (z - x).dot (p - x) = sideShare p x y z := by
  simp only [sideShare, along, Vec3.normSq, Vec3.dot, Vec3.sub_def]
  ring

theorem shareAcross_ac (p x y z : Vec3 K) : (y - x).dot (p - z) * (z - x).dot (p - x) -
    (y - x).dot (p - x) * (z - x).dot (p - z) = sideShare p x z y := by
  simp only [sideShare, along, Vec3.normSq, Vec3.dot, Vec3.sub_def]
  ring

theorem shareAcross_bc (p x y z : Vec3 K) : (y - x).dot (p - y) * (z - x).dot (p - z) -
    (y - x).dot (p - z) * (z - x).dot (p - y) = sideShare p y z x := by
  simp only [sideShare, along, Vec3.normSq, Vec3.dot, Vec3.sub_def]
  ring

theorem dot_sub_dot_eq_along (p x y z : Vec3 K) :
    (z - x).dot (p - y) - (y - x).dot (p - y) = along p y z := by
  simp only [along, Vec3.dot, Vec3.sub_def]
  ring

theorem dot_le_iff_along (p x y z : Vec3 K) :
    (z - x).dot (p - y) ≤ (y - x).dot (p - y) ↔ along p y z ≤ 0 := by
  rw [← dot_sub_dot_eq_along p x y z, sub_nonpos]

theorem spread_swap (x y z : Vec3 K) : spread y x z = spread x y z := by
  simp only [spread, Vec3.normSq, Vec3.dot, Vec3.sub_def]
  ring

theorem spread_comm (x y z : Vec3 K) : spread x z y = spread x y z := by
  simp only [spread, Vec3.dot_comm (z - x)]
  ring

theorem normSq_pos_of_spread_pos {x y z : Vec3 K} (h : 0 < spread x y z) : 0 < (y - x).normSq := by
  refine lt_of_le_of_ne (Vec3.normSq_nonneg _) fun hzero => ?_
  have hsq := mul_self_nonneg ((y - x).dot (z - x))
  rw [spread, ← hzero, zero_mul] at h
  linarith

/-! ## Regions -/

/-- Whether `p` is in the region of the corner `x`: behind it on both sides. -/
def AtCorner (p x y z : Vec3 K) : Prop := along p x y ≤ 0 ∧ along p x z ≤ 0

/-- Whether `p` is in the region of the side across from `z`: beyond it and between its ends. -/
def AtSide (p x y z : Vec3 K) : Prop := sideShare p x y z ≤ 0 ∧ 0 ≤ along p x y ∧ 0 ≤ along p y x

instance (p x y z : Vec3 K) : Decidable (AtCorner p x y z) := inferInstanceAs (Decidable (_ ∧ _))

instance (p x y z : Vec3 K) : Decidable (AtSide p x y z) := inferInstanceAs (Decidable (_ ∧ _ ∧ _))

theorem AtSide.swap {p x y z : Vec3 K} (h : AtSide p y x z) : AtSide p x y z :=
  ⟨sideShare_swap p x y z ▸ h.1, h.2.2, h.2.1⟩

/-- The share of `y` in the foot of `p` on the side from `x` to `y`. -/
def shareBetween (p x y : Vec3 K) : K := along p x y / (along p x y + along p y x)

theorem shareBetween_nonneg {p x y z : Vec3 K} (h : AtSide p x y z) : 0 ≤ shareBetween p x y :=
  div_nonneg h.2.1 (add_nonneg h.2.1 h.2.2)

theorem shareBetween_le_one {p x y z : Vec3 K} (h : AtSide p x y z) : shareBetween p x y ≤ 1 :=
  div_le_one_of_le₀ (le_add_of_nonneg_right h.2.2) (add_nonneg h.2.1 h.2.2)

/-- A point behind `x` on the side to `y`, but not on the side to `z`, is beyond the side to `y` only
at an obtuse angle. -/
theorem dot_neg_of_sideShare_nonpos {p x y z : Vec3 K} (hxy : 0 < (y - x).normSq)
    (hshare : sideShare p x y z ≤ 0) (hy : along p x y < 0) (hz : 0 < along p x z) :
    (y - x).dot (z - x) < 0 := by
  by_contra hdot
  have h1 : 0 < (y - x).normSq * along p x z := mul_pos hxy hz
  have h2 : (y - x).dot (z - x) * along p x y ≤ 0 :=
    mul_nonpos_of_nonneg_of_nonpos (not_lt.1 hdot) hy.le
  rw [sideShare] at hshare
  linarith

/-- Such a point is beyond the side to `z` as well. -/
theorem sideShare_neg_of_sideShare_nonpos {p x y z : Vec3 K} (harea : 0 < spread x y z)
    (hshare : sideShare p x y z ≤ 0) (hy : along p x y < 0) (hz : 0 < along p x z) :
    sideShare p x z y < 0 := by
  have hxy := normSq_pos_of_spread_pos harea
  have hdot := dot_neg_of_sideShare_nonpos hxy hshare hy hz
  have hexpand : (y - x).normSq * sideShare p x z y =
      spread x y z * along p x y - (y - x).dot (z - x) * sideShare p x y z := by
    rw [sideShare, sideShare, spread, Vec3.dot_comm (z - x)]
    ring
  have h1 : spread x y z * along p x y < 0 := mul_neg_of_pos_of_neg harea hy
  have h2 : 0 ≤ (y - x).dot (z - x) * sideShare p x y z :=
    mul_nonneg_of_nonpos_of_nonpos hdot.le hshare
  refine neg_of_mul_neg_right ?_ hxy.le
  linarith

/-- Beyond a side and behind one of its ends there is always a region. -/
theorem along_nonneg_of_sideShare_nonpos {p x y z : Vec3 K} (harea : 0 < spread x y z)
    (hshare : sideShare p x y z ≤ 0) (hx : ¬AtCorner p x y z) (hxz : ¬AtSide p x z y)
    (hz : ¬AtCorner p z x y) : 0 ≤ along p x y := by
  by_contra hneg
  have hxy : along p x y < 0 := not_le.1 hneg
  have hxz' : 0 < along p x z := not_le.1 fun h => hx ⟨hxy.le, h⟩
  have hshare' : sideShare p x z y < 0 := sideShare_neg_of_sideShare_nonpos harea hshare hxy hxz'
  have hzx : along p z x < 0 := not_le.1 fun h => hxz ⟨hshare'.le, hxz'.le, h⟩
  have hzy : 0 < along p z y := not_le.1 fun h => hz ⟨hzx.le, h⟩
  -- the angles at both ends of the side from `x` to `z` would be obtuse
  have hatx : (y - x).dot (z - x) < 0 :=
    dot_neg_of_sideShare_nonpos (normSq_pos_of_spread_pos harea) hshare hxy hxz'
  have hatz : (x - z).dot (y - z) < 0 := by
    have hspread : 0 < spread z x y := by rwa [spread_swap, spread_comm]
    refine dot_neg_of_sideShare_nonpos (normSq_pos_of_spread_pos hspread) ?_ hzx hzy
    rw [sideShare_swap]
    exact hshare'.le
  have hsum : (y - x).dot (z - x) + (x - z).dot (y - z) = (z - x).normSq := by
    simp only [Vec3.normSq, Vec3.dot, Vec3.sub_def]
    ring
  have := Vec3.normSq_nonneg (z - x)
  linarith

/-- **A point in no region is beyond no side.** -/
theorem sideShare_pos {p x y z : Vec3 K} (harea : 0 < spread x y z) (hx : ¬AtCorner p x y z)
    (hy : ¬AtCorner p y x z) (hz : ¬AtCorner p z x y) (hxy : ¬AtSide p x y z) (hxz : ¬AtSide p x z y)
    (hyz : ¬AtSide p y z x) : 0 < sideShare p x y z := by
  by_contra hneg
  have hshare : sideShare p x y z ≤ 0 := not_lt.1 hneg
  have h1 : 0 ≤ along p x y := along_nonneg_of_sideShare_nonpos harea hshare hx hxz hz
  have h2 : 0 ≤ along p y x := by
    refine along_nonneg_of_sideShare_nonpos ?_ ?_ hy hyz fun h => hz h.symm
    · rwa [spread_swap]
    · rwa [sideShare_swap]
  exact hxy ⟨hshare, h1, h2⟩

/-! ## The search -/

namespace Triangle

variable {t : Triangle K}

theorem spread_eq (t : Triangle K) : spread t.a t.b t.c = t.areaNormal.normSq := by
  simp only [spread, areaNormal, Vec3.normSq, Vec3.dot, Vec3.cross, Vec3.sub_def]
  ring

theorem spread_pos (h : t.hasArea = true) : 0 < spread t.a t.b t.c := by
  rw [spread_eq]
  exact of_decide_eq_true h

/-- The shares of the corners in the foot of a point on the plane. -/
theorem pointAt_sideShare (h : 0 < spread t.a t.b t.c) (p : Vec3 K) :
    t.pointAt (sideShare p t.a t.c t.b / spread t.a t.b t.c)
        (sideShare p t.a t.b t.c / spread t.a t.b t.c) =
      p - t.areaNormal.scale ((p - t.a).dot t.areaNormal / spread t.a t.b t.c) := by
  refine Vec3.ext_get fun axis => ?_
  simp only [pointAt, Vec3.get_add, Vec3.get_sub, Vec3.get_scale]
  field_simp
  cases axis
  all_goals
    simp only [spread, sideShare, along, areaNormal, Vec3.get, Vec3.normSq, Vec3.dot, Vec3.cross,
      Vec3.sub_def]
    ring

/-- **The search, by the regions it tries.** A triangle without area is left to its sides. -/
theorem closest_regions (t : Triangle K) (p : Vec3 K) : t.closest p =
    if AtCorner p t.a t.b t.c then t.a
    else if AtCorner p t.b t.a t.c then t.b
    else if AtSide p t.a t.b t.c then t.a + (t.b - t.a).scale (shareBetween p t.a t.b)
    else if AtCorner p t.c t.a t.b then t.c
    else if AtSide p t.a t.c t.b then t.a + (t.c - t.a).scale (shareBetween p t.a t.c)
    else if AtSide p t.b t.c t.a then t.b + (t.c - t.b).scale (shareBetween p t.b t.c)
    else if Scalar.isZero (spread t.a t.b t.c) then t.closestOnSides p
    else t.pointAt (sideShare p t.a t.c t.b / spread t.a t.b t.c)
      (sideShare p t.a t.b t.c / spread t.a t.b t.c) := by
  simp only [closest, shareAcross_ab, shareAcross_ac, shareAcross_bc, dot_le_iff_along,
    dot_sub_dot_eq_along, sideShare_add]
  simp only [dot_sub_end, neg_nonneg, neg_nonpos, sub_neg_eq_add]
  rfl

/-- Where no region of a triangle with area holds the point, the shares of the corners in its foot are as
the distances to the sides. -/
theorem closest_eq (h : t.hasArea = true) (p : Vec3 K) : t.closest p =
    if AtCorner p t.a t.b t.c then t.a
    else if AtCorner p t.b t.a t.c then t.b
    else if AtSide p t.a t.b t.c then t.a + (t.b - t.a).scale (shareBetween p t.a t.b)
    else if AtCorner p t.c t.a t.b then t.c
    else if AtSide p t.a t.c t.b then t.a + (t.c - t.a).scale (shareBetween p t.a t.c)
    else if AtSide p t.b t.c t.a then t.b + (t.c - t.b).scale (shareBetween p t.b t.c)
    else t.pointAt (sideShare p t.a t.c t.b / spread t.a t.b t.c)
      (sideShare p t.a t.b t.c / spread t.a t.b t.c) := by
  have hnonzero : ¬Scalar.isZero (spread t.a t.b t.c) = true := fun hzero =>
    (spread_pos h).ne' (Exact.isZero_iff.1 hzero)
  rw [closest_regions, if_neg hnonzero]

/-! ## Points of the triangle -/

theorem hasPoint_corners (t : Triangle K) : t.HasPoint t.a ∧ t.HasPoint t.b ∧ t.HasPoint t.c := by
  refine ⟨⟨0, 0, le_rfl, le_rfl, by norm_num, ?_⟩, ⟨1, 0, zero_le_one, le_rfl, by norm_num, ?_⟩,
    ⟨0, 1, le_rfl, zero_le_one, by norm_num, ?_⟩⟩
  all_goals
    refine Vec3.ext_get fun axis => ?_
    rw [get_pointAt]
    ring

theorem hasPoint_of_mem_corners (t : Triangle K) {q : Vec3 K} (hq : q ∈ t.corners) : t.HasPoint q := by
  obtain ⟨ha, hb, hc⟩ := t.hasPoint_corners
  simp only [corners, List.mem_cons, List.not_mem_nil, or_false] at hq
  rcases hq with rfl | rfl | rfl
  · exact ha
  · exact hb
  · exact hc

theorem hasPoint_sides (t : Triangle K) {s : K} (hs : 0 ≤ s) (hs' : s ≤ 1) :
    t.HasPoint (t.a + (t.b - t.a).scale s) ∧ t.HasPoint (t.a + (t.c - t.a).scale s) ∧
      t.HasPoint (t.b + (t.c - t.b).scale s) := by
  refine ⟨⟨s, 0, hs, le_rfl, by rwa [add_zero], ?_⟩, ⟨0, s, le_rfl, hs, by rwa [zero_add], ?_⟩,
    ⟨1 - s, s, sub_nonneg.2 hs', hs, (sub_add_cancel 1 s).le, ?_⟩⟩
  all_goals
    refine Vec3.ext_get fun axis => ?_
    simp only [get_pointAt, Vec3.get_add, Vec3.get_sub, Vec3.get_scale]
    ring

/-- A place in no region of a triangle with area is on the inner side of all three sides. -/
theorem sideShares_pos (h : t.hasArea = true) {p : Vec3 K} (ha : ¬AtCorner p t.a t.b t.c)
    (hb : ¬AtCorner p t.b t.a t.c) (hc : ¬AtCorner p t.c t.a t.b) (hab : ¬AtSide p t.a t.b t.c)
    (hac : ¬AtSide p t.a t.c t.b) (hbc : ¬AtSide p t.b t.c t.a) :
    0 < sideShare p t.b t.c t.a ∧ 0 < sideShare p t.a t.c t.b ∧ 0 < sideShare p t.a t.b t.c := by
  have hspread : 0 < spread t.a t.b t.c := spread_pos h
  have hspread_acb : 0 < spread t.a t.c t.b := by rwa [spread_comm]
  have hspread_bca : 0 < spread t.b t.c t.a := by rwa [spread_comm, spread_swap]
  refine ⟨?_, ?_, sideShare_pos hspread ha hb hc hab hac hbc⟩
  · exact sideShare_pos hspread_bca (mt And.symm hb) (mt And.symm hc) ha hbc
      (mt AtSide.swap hab) (mt AtSide.swap hac)
  · exact sideShare_pos hspread_acb (mt And.symm ha) hc hb hac hab (mt AtSide.swap hbc)

/-- **The nearest point that the search finds belongs to the triangle.** -/
theorem hasPoint_closest (h : t.hasArea = true) (p : Vec3 K) : t.HasPoint (t.closest p) := by
  obtain ⟨ha, hb, hc⟩ := t.hasPoint_corners
  rw [closest_eq h]
  split_ifs with hatA hatB hab hatC hac hbc
  · exact ha
  · exact hb
  · exact (t.hasPoint_sides (shareBetween_nonneg hab) (shareBetween_le_one hab)).1
  · exact hc
  · exact (t.hasPoint_sides (shareBetween_nonneg hac) (shareBetween_le_one hac)).2.1
  · exact (t.hasPoint_sides (shareBetween_nonneg hbc) (shareBetween_le_one hbc)).2.2
  · have hspread : 0 < spread t.a t.b t.c := spread_pos h
    obtain ⟨hA, hB, hC⟩ := sideShares_pos h hatA hatB hatC hab hac hbc
    have hsum : sideShare p t.b t.c t.a + sideShare p t.a t.c t.b + sideShare p t.a t.b t.c =
        spread t.a t.b t.c := sideShare_add ..
    refine ⟨_, _, div_nonneg hB.le hspread.le, div_nonneg hC.le hspread.le, ?_, rfl⟩
    rw [← add_div, div_le_one hspread]
    linarith

end Triangle

end Isomesh
