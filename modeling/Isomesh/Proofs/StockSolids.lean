import Mathlib
import Isomesh.Proofs.CoveredBox
import Isomesh.Proofs.NestedBounds

/-!
# Solids keep to their boxes

A solid is sampled only in the box that it promises not to leave. The solids of the library keep that
promise. For balls and cylinders it follows from the distance to the center or to the axis, since no
coordinate of a vector is longer than the vector. Boxes and the insides of surfaces test their box
themselves. A union has the box around the boxes of its parts, so a union of solids that keep to their
boxes keeps to its own, and so on for unions of unions.

* `Solid.Stock`: the solids of the library.
* `Solid.confined_ball`, `Solid.confined_cylinder`, `Solid.confined_union`: one lemma for each kind.
* `Solid.stock_solids_confined`: the main result.
-/

set_option autoImplicit false

namespace Isomesh

/-- The solids that the library builds, from balls and cylinders without negative radius, boxes and
surfaces of any kind. Unions may be nested, and may be empty. -/
inductive Solid.Stock {K : Type} [Scalar K] : Solid K → Prop where
  | ball (center : Vec3 K) {radius : K} (h : 0 ≤ radius) : Stock (ball center radius)
  | box (bounds : Bounds K) : Stock (box bounds)
  | cylinder (base top : Vec3 K) {radius : K} (h : 0 ≤ radius) : Stock (cylinder base top radius)
  | enclosedBy (surface : Collider K) : Stock (enclosedBy surface)
  | union {solids : List (Solid K)} (h : ∀ s ∈ solids, Stock s) : Stock (union solids)

variable {K : Type} [Field K] [LinearOrder K] [IsStrictOrderedRing K] [FloorRing K] [SquareRoot K]

namespace Vec3

theorem get_mul_self_le_normSq (v : Vec3 K) (axis : Axis) : v.get axis * v.get axis ≤ v.normSq := by
  have hnormSq : v.normSq = v.x * v.x + v.y * v.y + v.z * v.z := rfl
  have hx := mul_self_nonneg v.x
  have hy := mul_self_nonneg v.y
  have hz := mul_self_nonneg v.z
  cases axis <;> simp only [get] <;> linarith

/-- No coordinate of a vector is longer than the vector. -/
theorem abs_get_le {v : Vec3 K} {r : K} (hr : 0 ≤ r) (h : v.normSq ≤ r * r) (axis : Axis) :
    |v.get axis| ≤ r :=
  abs_le_of_sq_le_sq (by
    rw [sq, sq]
    exact (v.get_mul_self_le_normSq axis).trans h) hr

end Vec3

namespace Solid

/-! ## One kind of solid at a time -/

theorem confined_ball (center : Vec3 K) {radius : K} (h : 0 ≤ radius) :
    (ball center radius).Confined := by
  intro p hp
  have hnear : (p - center).normSq ≤ radius * radius := of_decide_eq_true hp
  refine Bounds.contains_iff.2 fun axis => ?_
  have hoffset := abs_le.1 (Vec3.abs_get_le h hnear axis)
  simp only [ball, Vec3.get_sub, Vec3.get_add, Vec3.get_uniform] at hoffset ⊢
  constructor <;> linarith [hoffset.1, hoffset.2]

/-- Where a point of a cylinder is: at some share of the axis, and no further from there than the radius. -/
theorem exists_foot_of_cylinder {base top p : Vec3 K} {radius : K}
    (h : (cylinder base top radius).contains p = true) : ∃ t, 0 ≤ t ∧ t ≤ 1 ∧
      (p - base - (top - base).scale t).normSq ≤ radius * radius := by
  simp only [cylinder] at h
  split at h
  · cases h
  · rw [Bool.and_eq_true, decide_eq_true_eq, Scalar.inUnit, Bool.and_eq_true, decide_eq_true_eq,
      decide_eq_true_eq] at h
    exact ⟨_, h.1.1, h.1.2, h.2⟩

/-- **A cylinder keeps to its box,** however its axis runs. -/
theorem confined_cylinder (base top : Vec3 K) {radius : K} (h : 0 ≤ radius) :
    (cylinder base top radius).Confined := by
  intro p hp
  obtain ⟨t, ht, ht', hnear⟩ := exists_foot_of_cylinder hp
  refine Bounds.contains_iff.2 fun axis => ?_
  have hoffset := abs_le.1 (Vec3.abs_get_le h hnear axis)
  simp only [cylinder, Vec3.get_sub, Vec3.get_add, Vec3.get_scale, Vec3.get_uniform, Vec3.get_lesser,
    Vec3.get_greater] at hoffset ⊢
  -- the foot of the point on the axis is between the cap centers
  have hlo : min (base.get axis) (top.get axis) ≤
      base.get axis + (top.get axis - base.get axis) * t := by
    have hbase := mul_le_mul_of_nonneg_left (min_le_left (base.get axis) (top.get axis))
      (sub_nonneg.2 ht')
    have htop := mul_le_mul_of_nonneg_left (min_le_right (base.get axis) (top.get axis)) ht
    linarith
  have hhi : base.get axis + (top.get axis - base.get axis) * t ≤
      max (base.get axis) (top.get axis) := by
    have hbase := mul_le_mul_of_nonneg_left (le_max_left (base.get axis) (top.get axis))
      (sub_nonneg.2 ht')
    have htop := mul_le_mul_of_nonneg_left (le_max_right (base.get axis) (top.get axis)) ht
    linarith
  constructor <;> linarith [hoffset.1, hoffset.2]

theorem confined_enclosedBy (surface : Collider K) : (enclosedBy surface).Confined :=
  fun _ hp => (Bool.and_eq_true_iff.1 hp).1

/-- The box of a union has the boxes of all parts within it. -/
theorem within_union {solids : List (Solid K)} {s : Solid K} (h : s ∈ solids) :
    s.bounds.Within (union solids).bounds := by
  cases solids with
  | nil => cases h
  | cons first rest => exact Bounds.within_of_mem_foldl_join (List.mem_map_of_mem h)

/-- **A union of solids that keep to their boxes keeps to its own.** -/
theorem confined_union {solids : List (Solid K)} (h : ∀ s ∈ solids, s.Confined) :
    (union solids).Confined := by
  intro p hp
  obtain ⟨s, hs, hsp⟩ := List.any_eq_true.1 hp
  exact (within_union hs).contains (h s hs p hsp)

theorem Stock.confined {solid : Solid K} (h : solid.Stock) : solid.Confined := by
  induction h with
  | ball center hradius => exact confined_ball center hradius
  | box bounds => exact fun _ hp => hp
  | cylinder base top hradius => exact confined_cylinder base top hradius
  | enclosedBy surface => exact confined_enclosedBy surface
  | union _ ih => exact confined_union ih

/-! ## Main result -/

/-- **Every solid of the library keeps to its box.** Each coordinate of a point that passes the membership
test is between those of the two corners that the solid declares. -/
theorem stock_solids_confined {solid : Solid K} (h : solid.Stock) {p : Vec3 K}
    (hp : solid.contains p = true) (axis : Axis) :
    solid.bounds.lo.get axis ≤ p.get axis ∧ p.get axis ≤ solid.bounds.hi.get axis :=
  Bounds.contains_iff.1 (h.confined p hp) axis

/-- A cylinder across all axes, in a union with an empty one and one of three solids. -/
def rodAmongOthers : Solid ℚ :=
  union [union [], cylinder ⟨0, 0, 0⟩ ⟨1, 2, 2⟩ (3 / 2),
    union [ball ⟨5, 0, 0⟩ 1, enclosedBy (Triangle.collider ⟨⟨0, 0, 0⟩, ⟨1, 0, 0⟩, ⟨0, 1, 0⟩⟩),
      box ⟨⟨-1, -1, 3⟩, ⟨0, 0, 4⟩⟩]]

/-- A point on the rim of a cap. -/
theorem rodAmongOthers_confined : rodAmongOthers.contains ⟨1, 3, 1⟩ = true ∧ ∀ axis,
    rodAmongOthers.bounds.lo.get axis ≤ (⟨1, 3, 1⟩ : Vec3 ℚ).get axis ∧
      (⟨1, 3, 1⟩ : Vec3 ℚ).get axis ≤ rodAmongOthers.bounds.hi.get axis := by
  have hinner : (union [ball ⟨5, 0, 0⟩ 1,
      enclosedBy (Triangle.collider ⟨⟨0, 0, 0⟩, ⟨1, 0, 0⟩, ⟨0, 1, 0⟩⟩),
      box ⟨⟨-1, -1, 3⟩, ⟨0, 0, 4⟩⟩] : Solid ℚ).Stock :=
    .union (List.forall_mem_cons.2 ⟨.ball _ (by decide +kernel), List.forall_mem_cons.2
      ⟨.enclosedBy _, List.forall_mem_singleton.2 (.box _)⟩⟩)
  have hstock : rodAmongOthers.Stock :=
    .union (List.forall_mem_cons.2 ⟨.union (List.forall_mem_nil _), List.forall_mem_cons.2
      ⟨.cylinder _ _ (by decide +kernel), List.forall_mem_singleton.2 hinner⟩⟩)
  have hp : rodAmongOthers.contains ⟨1, 3, 1⟩ = true := by decide +kernel
  exact ⟨hp, stock_solids_confined hstock hp⟩

end Solid

end Isomesh
