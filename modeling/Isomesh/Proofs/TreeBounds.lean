import Mathlib
import Isomesh.Tree
import Isomesh.Proofs.OrderedScalars

/-!
# The boxes of a tree

Every branch of a tree has the box around the boxes of its parts. So the box of a tree is the smallest
one around the corners of its triangles. In exact arithmetic it holds every point of them, and it does
not depend on how the triangles are arranged.

* `Tree.Boxed`: the invariant, which building a tree establishes.
* `Tree.Boxed.spans`: the box is the smallest.
* `Triangle.HasPoint`: the points of a triangle.
* `Tree.Boxed.contains_bounds`: it holds every point.
* `Tree.Boxed.bounds_eq_of_perm`: it does not depend on the arrangement.
-/

set_option autoImplicit false

namespace Isomesh

/-! ## Trees -/

theorem Tree.triangles_ne_nil {K : Type} (tree : Tree K) : tree.triangles ≠ [] := by
  induction tree with
  | leaf t => exact List.cons_ne_nil t []
  | branch box left right hl hr => exact List.append_ne_nil_of_left_ne_nil hl _

section Trees

variable {K : Type} [Scalar K]

theorem Bounds.contains_iff {box : Bounds K} {p : Vec3 K} :
    box.contains p = true ↔
      ∀ axis, box.lo.get axis ≤ p.get axis ∧ p.get axis ≤ box.hi.get axis := by
  simp only [contains, List.all_eq_true, Bool.and_eq_true, decide_eq_true_eq]
  exact ⟨fun h axis => h axis axis.mem_all, fun h axis _ => h axis⟩

namespace Tree

/-- Whether every branch has the box around the boxes of its parts. -/
def Boxed : Tree K → Prop
  | leaf _ => True
  | branch box left right => box = left.bounds.join right.bounds ∧ left.Boxed ∧ right.Boxed

theorem boxed_ofNonempty (ts : List (Triangle K)) (h : 0 < ts.length) : (ofNonempty ts h).Boxed := by
  fun_induction ofNonempty ts h with
  | case1 => trivial
  | case2 ts h single left right => exact ⟨rfl, left, right⟩

/-- A list with triangles has a tree. -/
theorem exists_ofList {ts : List (Triangle K)} (h : ts ≠ []) :
    ∃ tree, ofList ts = .ok tree ∧ tree.triangles = ts ∧ tree.Boxed := by
  have hpos : 0 < ts.length := List.length_pos_iff.2 h
  exact ⟨ofNonempty ts hpos, dif_pos hpos, triangles_ofNonempty ts hpos, boxed_ofNonempty ts hpos⟩

end Tree

end Trees

/-! ## Coordinates of corners -/

section Corners

variable {K : Type}

/-- The coordinates of the corners of some triangles along an axis. -/
def coordsAlong (axis : Axis) (ts : List (Triangle K)) : Set K :=
  {c | ∃ t ∈ ts, ∃ p ∈ t.corners, p.get axis = c}

theorem coordsAlong_append (axis : Axis) (ts us : List (Triangle K)) :
    coordsAlong axis (ts ++ us) = coordsAlong axis ts ∪ coordsAlong axis us := by
  ext c
  simp only [coordsAlong, List.mem_append, Set.mem_ofPred_eq, Set.mem_union, or_and_right, exists_or]

theorem coordsAlong_singleton (axis : Axis) (t : Triangle K) :
    coordsAlong axis [t] = {t.a.get axis} ∪ {t.b.get axis} ∪ {t.c.get axis} := by
  ext c
  simp only [coordsAlong, Triangle.corners, exists_eq_left, List.mem_cons,
    List.not_mem_nil, or_false, exists_eq_or_imp, Set.mem_ofPred_eq, Set.mem_union,
    Set.mem_singleton_iff, eq_comm (b := c), or_assoc]

theorem coordsAlong_perm {axis : Axis} {ts us : List (Triangle K)} (h : ts.Perm us) :
    coordsAlong axis ts = coordsAlong axis us := by
  ext c
  simp only [coordsAlong, h.mem_iff]

end Corners

/-! ## The smallest box -/

namespace Tree

section Smallest

variable {K : Type} [Scalar K] [OrderedScalar K] {tree : Tree K} {axis : Axis}

/-- **The box of a tree reaches just as far as the corners of its triangles.** -/
theorem Boxed.spans (h : tree.Boxed)
    (hdef : ∀ c ∈ coordsAlong axis tree.triangles, Scalar.Defined c) :
    tree.bounds.Spans axis (coordsAlong axis tree.triangles) := by
  induction tree with
  | leaf t =>
    rw [triangles, coordsAlong_singleton] at hdef ⊢
    have ha := Bounds.spans_singleton (hdef _ (.inl (.inl rfl)))
    have hb := Bounds.spans_singleton (hdef _ (.inl (.inr rfl)))
    have hc := Bounds.spans_singleton (hdef _ (.inr rfl))
    exact (ha.join hb).join hc
  | branch box left right hl hr =>
    obtain ⟨rfl, hleft, hright⟩ := h
    rw [triangles, coordsAlong_append] at hdef ⊢
    exact (hl hleft fun c hc => hdef c (.inl hc)).join (hr hright fun c hc => hdef c (.inr hc))

end Smallest

end Tree

variable {K : Type} [Field K] [LinearOrder K] [IsStrictOrderedRing K] [FloorRing K] [SquareRoot K]

/-! ## Smaller and larger coordinates -/

namespace Vec3

theorem get_lesser (a b : Vec3 K) (axis : Axis) :
    (a.lesser b).get axis = min (a.get axis) (b.get axis) := by
  cases axis <;> exact Exact.lesser_eq_min _ _

theorem get_greater (a b : Vec3 K) (axis : Axis) :
    (a.greater b).get axis = max (a.get axis) (b.get axis) := by
  cases axis <;> exact Exact.greater_eq_max _ _

end Vec3

/-! ## Points of a triangle -/

namespace Triangle

/-- The point at given shares of the two sides that leave the first corner. -/
def pointAt (t : Triangle K) (u v : K) : Vec3 K :=
  t.a + (t.b - t.a).scale u + (t.c - t.a).scale v

/-- Whether a point belongs to the triangle, its sides and corners included. -/
def HasPoint (t : Triangle K) (q : Vec3 K) : Prop :=
  ∃ u v, 0 ≤ u ∧ 0 ≤ v ∧ u + v ≤ 1 ∧ q = t.pointAt u v

theorem get_pointAt (t : Triangle K) (u v : K) (axis : Axis) :
    (t.pointAt u v).get axis =
      (1 - u - v) * t.a.get axis + u * t.b.get axis + v * t.c.get axis := by
  simp only [pointAt, Vec3.get_add, Vec3.get_sub, Vec3.get_scale]
  ring

/-- The coordinates of a point of the triangle are between those of its corners. -/
theorem HasPoint.get_mem_Icc {t : Triangle K} {q : Vec3 K} (h : t.HasPoint q) {axis : Axis} {lo hi : K}
    (hcorners : ∀ p ∈ t.corners, p.get axis ∈ Set.Icc lo hi) : q.get axis ∈ Set.Icc lo hi := by
  obtain ⟨u, v, hu, hv, huv, rfl⟩ := h
  simp only [corners, List.forall_mem_cons, List.not_mem_nil, false_imp_iff, implies_true,
    and_true] at hcorners
  obtain ⟨ha, hb, hc⟩ := hcorners
  rw [get_pointAt]
  have hw : 0 ≤ 1 - u - v := by linarith
  constructor
  · have h1 := mul_le_mul_of_nonneg_left ha.1 hw
    have h2 := mul_le_mul_of_nonneg_left hb.1 hu
    have h3 := mul_le_mul_of_nonneg_left hc.1 hv
    linarith
  · have h1 := mul_le_mul_of_nonneg_left ha.2 hw
    have h2 := mul_le_mul_of_nonneg_left hb.2 hu
    have h3 := mul_le_mul_of_nonneg_left hc.2 hv
    linarith

end Triangle

/-! ## The box in exact arithmetic -/

namespace Tree

variable {tree other : Tree K}

theorem Boxed.isLeast (h : tree.Boxed) (axis : Axis) :
    IsLeast (coordsAlong axis tree.triangles) (tree.bounds.lo.get axis) :=
  (h.spans fun _ _ => le_refl _).isLeast

theorem Boxed.isGreatest (h : tree.Boxed) (axis : Axis) :
    IsGreatest (coordsAlong axis tree.triangles) (tree.bounds.hi.get axis) :=
  (h.spans fun _ _ => le_refl _).isGreatest

/-- **The box of a tree holds every point of its triangles.** -/
theorem Boxed.contains_bounds (h : tree.Boxed) {t : Triangle K} (ht : t ∈ tree.triangles)
    {q : Vec3 K} (hq : t.HasPoint q) : tree.bounds.contains q = true := by
  rw [Bounds.contains_iff]
  exact fun axis => hq.get_mem_Icc fun p hp =>
    ⟨(h.isLeast axis).2 ⟨t, ht, p, hp, rfl⟩, (h.isGreatest axis).2 ⟨t, ht, p, hp, rfl⟩⟩

/-- **The box does not depend on how the triangles are arranged.** -/
theorem Boxed.bounds_eq_of_perm (h : tree.Boxed) (hother : other.Boxed)
    (hperm : other.triangles.Perm tree.triangles) : other.bounds = tree.bounds := by
  have hlo : other.bounds.lo = tree.bounds.lo := Vec3.ext_get fun axis =>
    (coordsAlong_perm hperm ▸ hother.isLeast axis).unique (h.isLeast axis)
  have hhi : other.bounds.hi = tree.bounds.hi := Vec3.ext_get fun axis =>
    (coordsAlong_perm hperm ▸ hother.isGreatest axis).unique (h.isGreatest axis)
  cases hb : other.bounds
  cases hb' : tree.bounds
  simp_all

end Tree

end Isomesh
