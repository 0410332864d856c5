import Mathlib
import Isomesh.Proofs.NearestSearch
import Isomesh.Proofs.TouchingBalls

/-!
# A tree answers about balls as a scan of its triangles does

A question about a ball skips a part of the tree when the square of the distance to the box of the part
is larger than that of the radius. A negative radius has a square too, so boxes let through what no
triangle confirms. But a triangle that confirms has a point in every box above it, and none of these
boxes is skipped.

* `Bounds.meetsBall_of_contains`: a box with a near point is not skipped.
* `Tree.Boxed.touchesBall_iff`: one question, by induction on the tree.
* `Tree.balls_over_triangles`: the main result.
-/

set_option autoImplicit false

namespace Isomesh

variable {K : Type} [Field K] [LinearOrder K] [IsStrictOrderedRing K] [FloorRing K] [SquareRoot K]
  [ExactRoot K]

/-- **A box with a point that is nearer than the radius** is not skipped. -/
theorem Bounds.meetsBall_of_contains {box : Bounds K} {center q : Vec3 K} {r : K}
    (hq : box.contains q = true) (hnear : q.dist center < r) : box.meetsBall center r = true := by
  have hsq : q.distSq center < r * r := (Vec3.dist_lt_iff.1 hnear).2
  have hbox : box.distSq center ≤ q.distSq center := distSq_le_of_contains hq
  exact decide_eq_true (hbox.trans hsq.le)

namespace Tree

variable {tree : Tree K} {center : Vec3 K} {r : K}

/-- No box above a touched triangle is skipped. -/
theorem Boxed.meetsBall (h : tree.Boxed) {t : Triangle K} (ht : t ∈ tree.triangles)
    (htouch : t.touchesBall center r = true) : tree.bounds.meetsBall center r = true := by
  obtain ⟨q, hq, hnear⟩ := t.exists_near_of_touchesBall htouch
  exact Bounds.meetsBall_of_contains (h.contains_bounds ht hq) hnear

/-- **One question**, by induction on the tree: what is skipped has no touched triangle. -/
theorem Boxed.touchesBall_iff (h : tree.Boxed) :
    tree.touchesBall center r = true ↔ ∃ t ∈ tree.triangles, t.touchesBall center r = true := by
  induction tree with
  | leaf t =>
    rw [touchesBall, Bool.and_eq_true]
    constructor
    · rintro ⟨-, htouch⟩
      exact ⟨t, List.mem_singleton_self t, htouch⟩
    · rintro ⟨u, hu, htouch⟩
      have hut : u = t := List.mem_singleton.1 hu
      exact ⟨h.meetsBall hu htouch, hut ▸ htouch⟩
  | branch box left right hl hr =>
    rw [touchesBall, Bool.and_eq_true, Bool.or_eq_true, hl h.2.1, hr h.2.2]
    constructor
    · rintro ⟨-, ⟨t, ht, htouch⟩ | ⟨t, ht, htouch⟩⟩
      · exact ⟨t, List.mem_append_left _ ht, htouch⟩
      · exact ⟨t, List.mem_append_right _ ht, htouch⟩
    · rintro ⟨t, ht, htouch⟩
      refine ⟨h.meetsBall ht htouch, (List.mem_append.1 ht).imp ?_ ?_⟩
      · exact fun hleft => ⟨t, hleft, htouch⟩
      · exact fun hright => ⟨t, hright, htouch⟩

/-- **A tree over some triangles answers about every ball as a scan of the list does**: some triangle is
touched. Degenerate triangles count like all others, and a radius need not be positive. How the triangles
are arranged makes no difference. -/
theorem balls_over_triangles {ts : List (Triangle K)} (hne : ts ≠ []) :
    (∃ tree, ofList ts = .ok tree ∧ ∀ center r,
      tree.collider.touchesBall center r = true ↔ ∃ t ∈ ts, t.touchesBall center r = true) ∧
    ∀ m : Mesh K, m.triangles.Perm ts → ∃ tree, ofMesh m = .ok tree ∧ ∀ center r,
      tree.collider.touchesBall center r = true ↔ ∃ t ∈ ts, t.touchesBall center r = true := by
  have hlist : ∀ us : List (Triangle K), us.Perm ts → ∃ tree, ofList us = .ok tree ∧ ∀ center r,
      tree.collider.touchesBall center r = true ↔ ∃ t ∈ ts, t.touchesBall center r = true := by
    intro us hperm
    have hus : us ≠ [] := fun hnil => hne (hnil ▸ hperm).symm.eq_nil
    obtain ⟨tree, htree, rfl, hboxed⟩ := exists_ofList hus
    refine ⟨tree, htree, fun center r => ?_⟩
    simp only [← hperm.mem_iff]
    exact hboxed.touchesBall_iff
  exact ⟨hlist ts (.refl ts), fun m hperm => hlist _ ((groupTriangles_perm m.triangles).trans hperm)⟩

/-- A triangle without area along the first axis, and one with area above it. -/
def needleAndLid : List (Triangle ℝ) :=
  [⟨⟨-1, 0, 0⟩, ⟨1, 0, 0⟩, ⟨0, 0, 0⟩⟩, ⟨⟨0, 0, 1⟩, ⟨1, 0, 1⟩, ⟨0, 1, 1⟩⟩]

/-- A ball that touches the first triangle between its corners, and its negative radius. -/
theorem balls_over_needleAndLid : needleAndLid ≠ [] ∧ ∃ tree, ofList needleAndLid = .ok tree ∧
    tree.collider.touchesBall ⟨1 / 2, 1 / 2, 0⟩ (3 / 5) = true ∧
    tree.collider.touchesBall ⟨1 / 2, 1 / 2, 0⟩ (-(3 / 5)) = false := by
  have hne : needleAndLid ≠ [] := List.cons_ne_nil _ _
  obtain ⟨⟨tree, htree, htouches⟩, -⟩ := balls_over_triangles hne
  refine ⟨hne, tree, htree, (htouches _ _).2 ⟨_, List.mem_cons_self, ?_⟩, ?_⟩
  · have hside : ballTouchesSegment (⟨1 / 2, 1 / 2, 0⟩ : Vec3 ℝ) (3 / 5) ⟨-1, 0, 0⟩ ⟨1, 0, 0⟩ = true := by
      have hnearest : closestOnSegment (⟨1 / 2, 1 / 2, 0⟩ : Vec3 ℝ) ⟨-1, 0, 0⟩ ⟨1, 0, 0⟩ =
          ⟨1 / 2, 0, 0⟩ := by
        norm_num [closestOnSegment, Exact.isZero_iff, Scalar.clampUnit, Vec3.normSq, Vec3.dot,
          Vec3.scale, Vec3.sub_def, Vec3.add_def]
      have hdist : (⟨1 / 2, 0, 0⟩ : Vec3 ℝ).dist ⟨1 / 2, 1 / 2, 0⟩ < 3 / 5 := by
        rw [Vec3.dist_lt_iff]
        norm_num [Vec3.distSq, Vec3.normSq, Vec3.dot, Vec3.sub_def]
      rw [ballTouchesSegment, hnearest, decide_eq_true hdist, Bool.or_true]
    have hflat : ¬0 < (Triangle.areaNormal (⟨⟨-1, 0, 0⟩, ⟨1, 0, 0⟩, ⟨0, 0, 0⟩⟩ : Triangle ℝ)).norm := by
      rw [Vec3.norm_pos_iff]
      norm_num [Triangle.areaNormal, Vec3.normSq, Vec3.dot, Vec3.cross, Vec3.sub_def]
    simp only [Triangle.touchesBall, hflat, if_false, ite_self, Triangle.sidesTouchBall,
      Triangle.sides, List.any_cons, hside, Bool.true_or]
  · rw [← Bool.not_eq_true, htouches]
    rintro ⟨t, -, htouch⟩
    obtain ⟨q, -, hnear⟩ := t.exists_near_of_touchesBall htouch
    have hpos := (Vec3.dist_lt_iff.1 hnear).1
    norm_num at hpos

end Tree

end Isomesh
