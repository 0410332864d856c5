import Mathlib
import Isomesh.Mesh
import Isomesh.Proofs.TreeBounds

/-!
# Boxes within boxes

The box around several boxes is the smallest one that they are all within, so a box is within another one
just when its parts are. Everything that is known about joined boxes follows from that.

* `Bounds.Within`: a box within another one.
* `Bounds.within_of_mem_foldl_join`: the parts of a joined box.
* `Mesh.exists_bounds`: the box of a mesh.
-/

set_option autoImplicit false

namespace Isomesh

/-- Whether a box reaches nowhere beyond another one. -/
def Bounds.Within {K : Type} [Scalar K] (inner outer : Bounds K) : Prop :=
  ∀ axis, outer.lo.get axis ≤ inner.lo.get axis ∧ inner.hi.get axis ≤ outer.hi.get axis

variable {K : Type} [Field K] [LinearOrder K] [IsStrictOrderedRing K] [FloorRing K] [SquareRoot K]

namespace Bounds

variable {a b outer : Bounds K}

theorem Within.refl (a : Bounds K) : a.Within a := fun _ => ⟨le_rfl, le_rfl⟩

/-- The points of a box stay in a box that it is within. -/
theorem Within.contains (h : a.Within b) {p : Vec3 K} (hp : a.contains p = true) :
    b.contains p = true := by
  rw [contains_iff] at hp ⊢
  exact fun axis => ⟨(h axis).1.trans (hp axis).1, (hp axis).2.trans (h axis).2⟩

/-! ## Joined boxes -/

theorem join_within_iff : (a.join b).Within outer ↔ a.Within outer ∧ b.Within outer := by
  simp only [Within, join, Vec3.get_lesser, Vec3.get_greater, le_min_iff, max_le_iff, ← forall_and]
  exact forall_congr' fun axis => and_and_and_comm

/-- A box around several boxes is within another one just when they are. -/
theorem foldl_join_within_iff (first : Bounds K) (rest : List (Bounds K)) :
    (rest.foldl join first).Within outer ↔ ∀ box ∈ first :: rest, box.Within outer := by
  induction rest generalizing first with
  | nil => simp only [List.foldl_nil, List.forall_mem_singleton]
  | cons second rest ih =>
    rw [List.foldl_cons, ih]
    simp only [List.forall_mem_cons, join_within_iff, and_assoc]

/-- **The box around several boxes** has them within it. -/
theorem within_of_mem_foldl_join {first box : Bounds K} {rest : List (Bounds K)}
    (h : box ∈ first :: rest) : box.Within (rest.foldl join first) :=
  (foldl_join_within_iff first rest).1 (Within.refl _) box h

end Bounds

/-! ## Triangles and meshes -/

theorem Triangle.bounds_within_iff {t : Triangle K} {outer : Bounds K} :
    t.bounds.Within outer ↔ ∀ p ∈ t.corners, outer.contains p = true := by
  simp only [Bounds.Within, bounds, corners, List.forall_mem_cons, Bounds.contains_iff, Vec3.get_lesser,
    Vec3.get_greater, le_min_iff, max_le_iff, List.not_mem_nil, false_imp_iff, implies_true, and_true,
    ← forall_and]
  exact forall_congr' fun axis => by tauto

/-- **A mesh with triangles has a box,** which is within another one just when that contains all
corners. -/
theorem Mesh.exists_bounds {m : Mesh K} (h : m.triangles ≠ []) : ∃ box, m.bounds? = some box ∧
    ∀ outer : Bounds K, box.Within outer ↔
      ∀ t ∈ m.triangles, ∀ p ∈ t.corners, outer.contains p = true := by
  obtain ⟨first, rest, htriangles⟩ := List.exists_cons_of_ne_nil h
  refine ⟨(rest.map Triangle.bounds).foldl Bounds.join first.bounds, ?_, fun outer => ?_⟩
  · rw [bounds?, htriangles, List.map_cons]
  · rw [Bounds.foldl_join_within_iff, ← List.map_cons, List.forall_mem_map, htriangles]
    simp only [Triangle.bounds_within_iff]

end Isomesh
