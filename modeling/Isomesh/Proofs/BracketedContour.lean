import Mathlib
import Isomesh.Proofs.OutwardNormals
import Isomesh.Proofs.RefinedVertices

/-!
# Refinement brackets the boundary

Each vertex of a sampled surface is halfway between a lattice point inside and a neighbour outside. The
normal at the vertex leans from the one to the other, so refinement knows which end is which without
asking the solid, and it bisects the edge from the inside to the outside. What it returns has a point of
the solid on one side and a point outside it on the other, both nearer with each step.

* `Brackets`: a point between one inside and one outside.
* `Lattice.refineVertex_crossing`: refinement bisects from the inside to the outside.
* `refinement_brackets_boundary`: the main result.
-/

set_option autoImplicit false

namespace Isomesh

variable {K : Type} [Field K] [LinearOrder K] [IsStrictOrderedRing K] [FloorRing K] [SquareRoot K]

/-! ## Brackets on an edge -/

/-- `BracketsAlong` for a point of space between two others, with membership in a solid as the property. -/
def Brackets (solid : Solid K) (gap : K) (inner outer p : Vec3 K) : Prop :=
  ∃ s, gap ≤ s ∧ s ≤ 1 - gap ∧ p = inner + (outer - inner).scale s ∧
    solid.contains (p - (outer - inner).scale gap) = true ∧
    solid.contains (p + (outer - inner).scale gap) = false

/-! ## One vertex -/

theorem Vec3.dot_of_axis {axis : Axis} {u d : Vec3 K} (h : ∀ a ≠ axis, d.get a = 0) :
    u.dot d = u.get axis * d.get axis := by
  have hx := h .x
  have hy := h .y
  have hz := h .z
  cases axis <;> simp_all [dot, get]

theorem Vec3.set_add_scale {axis : Axis} {d : Vec3 K} (h : ∀ a ≠ axis, d.get a = 0) (v : Vec3 K)
    (c g : K) : v.set axis (c + d.get axis * g) = v.set axis c + d.scale g := by
  refine ext_get fun a => ?_
  rw [get_add, get_scale]
  by_cases ha : a = axis
  · rw [ha, get_set_self, get_set_self]
  · rw [get_set_of_ne _ _ ha, get_set_of_ne _ _ ha, h a ha, zero_mul, add_zero]

theorem Vec3.set_sub_scale {axis : Axis} {d : Vec3 K} (h : ∀ a ≠ axis, d.get a = 0) (v : Vec3 K)
    (c g : K) : v.set axis (c - d.get axis * g) = v.set axis c - d.scale g := by
  rw [sub_eq_add_neg, ← mul_neg, set_add_scale h]
  refine ext_get fun a => ?_
  rw [get_add, get_sub, get_scale, get_scale]
  ring

namespace Lattice

variable {l : Lattice K} {solid : Solid K} {axis : Axis} {inner outer : Vec3 Nat}

theorem get_point_sub_of_ne (h : Neighbours axis inner outer) :
    ∀ a ≠ axis, (l.point outer - l.point inner).get a = 0 := by
  intro a ha
  rw [Vec3.get_sub, get_point, get_point, h.2 a ha, sub_self]

/-- One of two neighbours is further along the axis, by the length of the lattice. -/
theorem get_point_sub (h : Neighbours axis inner outer) :
    (l.point outer).get axis - (l.point inner).get axis = l.delta ∨
      (l.point outer).get axis - (l.point inner).get axis = -l.delta := by
  rw [get_point, get_point]
  refine h.1.imp (fun hnext => ?_) (fun hnext => ?_)
  all_goals
    rw [hnext]
    push_cast
    ring

/-- A lattice edge has the length of the lattice. -/
theorem distSq_point (h : Neighbours axis inner outer) :
    (l.point outer).distSq (l.point inner) = l.delta * l.delta := by
  rw [Vec3.distSq, Vec3.normSq, Vec3.dot_of_axis (get_point_sub_of_ne h), Vec3.get_sub]
  rcases l.get_point_sub h with hsub | hsub
  · rw [hsub]
  · rw [hsub, neg_mul_neg]

theorem get_midpoint_point (l : Lattice K) (inner outer : Vec3 Nat) (a : Axis) :
    ((l.point inner).midpoint (l.point outer)).get a =
      ((l.point inner).get a + (l.point outer).get a) / 2 := by
  rw [Vec3.midpoint, Vec3.get_scale, Vec3.get_add, mul_half_eq]

/-- The middle of a lattice edge differs from the ends along the edge only. -/
theorem set_midpoint_point (h : Neighbours axis inner outer) :
    ((l.point inner).midpoint (l.point outer)).set axis ((l.point inner).get axis) = l.point inner ∧
      ((l.point inner).midpoint (l.point outer)).set axis ((l.point outer).get axis) =
        l.point outer := by
  have heq : ∀ a ≠ axis, (l.point inner).get a = (l.point outer).get a := fun a ha => by
    rw [get_point, get_point, h.2 a ha]
  have hmid : ∀ a ≠ axis, ((l.point inner).midpoint (l.point outer)).get a = (l.point outer).get a := by
    intro a ha
    rw [get_midpoint_point, heq a ha]
    ring
  refine ⟨Vec3.ext_get fun a => ?_, Vec3.ext_get fun a => ?_⟩
  · by_cases ha : a = axis
    · rw [ha, Vec3.get_set_self]
    · rw [Vec3.get_set_of_ne _ _ ha, hmid a ha, heq a ha]
  · by_cases ha : a = axis
    · rw [ha, Vec3.get_set_self]
    · rw [Vec3.get_set_of_ne _ _ ha, hmid a ha]

/-- The axis along which the middle of a lattice edge is between two lattice points. -/
theorem edgeAxis?_midpoint (hd : 0 < l.delta) (h : Neighbours axis inner outer) :
    l.edgeAxis? ((l.point inner).midpoint (l.point outer)) = some axis ∧
      l.offset axis (((l.point inner).midpoint (l.point outer)).get axis) = l.delta / 2 := by
  rw [midpoint_point]
  have hodd : (middle inner outer).get axis % 2 = 1 := by
    have hnext := h.1
    rw [get_middle]
    omega
  have hoffset : l.offset axis ((l.halfPoint (middle inner outer)).get axis) = l.delta / 2 := by
    rw [offset_halfPoint hd, hodd, Nat.cast_one, one_mul]
  have hbetween : l.isBetween axis ((l.halfPoint (middle inner outer)).get axis) = true := by
    rw [isBetween, hoffset, Bool.and_eq_true, decide_eq_true_eq, decide_eq_true_eq]
    norm_num
    constructor <;> linarith
  refine ⟨?_, hoffset⟩
  cases hfind : l.edgeAxis? (l.halfPoint (middle inner outer)) with
  | none => exact absurd hbetween (List.find?_eq_none.1 hfind axis axis.mem_all)
  | some a =>
    have hfound := List.find?_some hfind
    have hodd' := odd_of_isBetween hd hfound
    by_contra hne
    have heven := h.2 a fun ha => hne (ha ▸ rfl)
    rw [get_middle] at hodd'
    omega

/-- **Refinement bisects a lattice edge from the end inside**, as the normal tells it. -/
theorem refineVertex_crossing (hd : 0 < l.delta) (h : Neighbours axis inner outer) (steps : Nat)
    {normal : Vec3 K} (hnormal : 0 < normal.dot (l.point outer - l.point inner)) :
    let v := (l.point inner).midpoint (l.point outer)
    l.refineVertex solid steps v normal = .ok (v.set axis (bisect
      (fun c => solid.contains (v.set axis c)) steps ((l.point inner).get axis)
        ((l.point outer).get axis))) := by
  intro v
  obtain ⟨haxis, hoffset⟩ := l.edgeAxis?_midpoint hd h
  rw [Vec3.dot_of_axis (get_point_sub_of_ne h), Vec3.get_sub] at hnormal
  have hmid := l.get_midpoint_point inner outer axis
  have hzero : ¬Scalar.isZero (normal.get axis) = true := by
    rw [Exact.isZero_iff]
    intro hzero
    rw [hzero, zero_mul] at hnormal
    exact hnormal.false
  unfold refineVertex
  simp only [v, haxis, hoffset, if_neg hzero]
  rw [hmid]
  rcases l.get_point_sub h with hsub | hsub
  · have hpos : 0 < normal.get axis := by
      rw [hsub] at hnormal
      exact (mul_pos_iff_of_pos_right hd).1 hnormal
    have hlower : ((l.point inner).get axis + (l.point outer).get axis) / 2 - l.delta / 2 =
        (l.point inner).get axis := by linarith
    have hupper : (l.point inner).get axis + l.delta = (l.point outer).get axis := by linarith
    rw [if_pos (decide_eq_true hpos), hlower, hupper]
  · have hneg : ¬0 < normal.get axis := by
      rw [hsub, mul_neg, neg_pos] at hnormal
      exact fun hpos => (mul_pos hpos hd).not_gt hnormal
    have hlower : ((l.point inner).get axis + (l.point outer).get axis) / 2 - l.delta / 2 =
        (l.point outer).get axis := by linarith
    have hupper : (l.point outer).get axis + l.delta = (l.point inner).get axis := by linarith
    rw [if_neg (by rwa [decide_eq_true_eq]), hlower, hupper]

/-- **A refined vertex is bracketed** by the solid and the space around it. -/
theorem brackets_refineVertex (hd : 0 < l.delta) (h : l.Crossing solid inner outer) (steps : Nat)
    {normal : Vec3 K} (hnormal : 0 < normal.dot (l.point outer - l.point inner)) :
    ∃ q, l.refineVertex solid steps ((l.point inner).midpoint (l.point outer)) normal = .ok q ∧
      Brackets solid (1 / 2 ^ (steps + 1)) (l.point inner) (l.point outer) q := by
  obtain ⟨axis, haxis⟩ := h.neighbours
  refine ⟨_, refineVertex_crossing hd haxis steps hnormal, ?_⟩
  let v := (l.point inner).midpoint (l.point outer)
  let d := l.point outer - l.point inner
  have hd' : ∀ a ≠ axis, d.get a = 0 := get_point_sub_of_ne haxis
  have hway : (l.point outer).get axis - (l.point inner).get axis = d.get axis := (Vec3.get_sub ..).symm
  obtain ⟨hinner, houter⟩ := l.set_midpoint_point haxis
  have hin : solid.contains (v.set axis ((l.point inner).get axis)) = true := by
    rw [hinner]
    exact h.inside
  have hout : solid.contains (v.set axis ((l.point outer).get axis)) = false := by
    rw [houter]
    exact h.outside
  obtain ⟨s, hlo, hhi, heq, hback, hon⟩ :=
    bisect_brackets (fun c => solid.contains (v.set axis c)) steps hin hout
  rw [hway] at heq hback hon
  refine ⟨s, hlo, hhi, ?_, ?_, ?_⟩
  · rw [heq, Vec3.set_add_scale hd', hinner]
  · rwa [← Vec3.set_sub_scale hd']
  · rwa [← Vec3.set_add_scale hd']

end Lattice

/-! ## The surface of a solid -/

/-- Every vertex of a sampled surface is bracketed after its refinement. -/
theorem brackets_of_mem_vertices {solid : Solid K} {l : Lattice K} (hd : 0 < l.delta) {rough : Mesh K}
    (hrough : rough = .ofTriangles (l.directSurface solid)) (steps : Nat) {v : Vec3 K}
    (hv : v ∈ rough.vertices) :
    ∃ inner outer, l.Crossing solid inner outer ∧ v = (l.point inner).midpoint (l.point outer) ∧
      ∃ q, l.refineVertex solid steps v (rough.indexed.areaNormalAt v) = .ok q ∧
        Brackets solid (1 / 2 ^ (steps + 1)) (l.point inner) (l.point outer) q := by
  have htriangles : rough.triangles = l.directSurface solid := by
    rw [hrough, Mesh.triangles_ofTriangles]
  have hcoherent : rough.indexed.Coherent := by
    rw [hrough]
    exact (Mesh.coherent_ofTriangles _).indexed
  obtain ⟨t, ht, hcorner⟩ := List.mem_flatMap.1 ((distinctOn_sublist _ _).subset hv)
  rw [htriangles] at ht
  obtain ⟨inner, outer, hcrossing, rfl⟩ := Lattice.exists_crossing ht hcorner
  exact ⟨inner, outer, hcrossing, rfl, Lattice.brackets_refineVertex hd hcrossing steps
    (Lattice.areaNormalAt_dot_pos hd hcoherent htriangles hcrossing ht hcorner)⟩

/-- **Refinement brackets the boundary.** Where sampling returns a surface, refining it succeeds too. It
moves each vertex along its lattice edge, which has one end inside and one outside, to a place from which
a step towards the end inside leads into the solid and one towards the other end out of it. The step is
half as long with each further halving. -/
theorem refinement_brackets_boundary {solid : Solid K} {delta : K} {planes : Nat} {rough : Mesh K}
    (h : contour solid ⟨delta, 0, planes⟩ = .ok rough) {steps : Nat} (hsteps : 1 ≤ steps) :
    ∃ (l : Lattice K) (refined : Mesh K) (place : Vec3 K → Vec3 K),
      Lattice.around solid.bounds delta = .ok l ∧
      contour solid ⟨delta, steps, planes⟩ = .ok refined ∧
      refined.triangles = rough.triangles.map (·.map place) ∧
      ∀ v ∈ rough.vertices, ∃ inner outer,
        l.Crossing solid inner outer ∧ v = (l.point inner).midpoint (l.point outer) ∧
          (l.point outer).distSq (l.point inner) = delta * delta ∧
          Brackets solid (1 / 2 ^ (steps + 1)) (l.point inner) (l.point outer) (place v) := by
  unfold contour at h
  obtain ⟨⟨l, mesh⟩, hrough, h⟩ := exists_of_bind_eq_ok h
  cases h
  obtain ⟨hl, -, hmesh⟩ := roughContour_eq_ok hrough
  obtain ⟨hdelta, hd⟩ := Lattice.delta_of_around hl
  have hvertex := fun v hv => brackets_of_mem_vertices hd hmesh steps (v := v) hv
  obtain ⟨refined, hrefined⟩ := exists_refine_eq_ok fun v hv => by
    obtain ⟨_, _, _, _, q, hq, _⟩ := hvertex v hv
    exact ⟨q, hq⟩
  obtain ⟨place, hplaced, hplace⟩ := refine_eq_ok hrefined
  have hsampled : roughContour solid ⟨delta, steps, planes⟩ = .ok (l, rough) := hrough
  refine ⟨l, refined, place, hl, ?_, ?_, fun v hv => ?_⟩
  · unfold contour
    rw [hsampled]
    exact (if_neg (Nat.one_le_iff_ne_zero.1 hsteps)).trans hrefined
  · rw [hplaced, Mesh.triangles_ofTriangles]
  · obtain ⟨inner, outer, hcrossing, hmid, q, hq, hbrackets⟩ := hvertex v hv
    obtain ⟨axis, haxis⟩ := hcrossing.neighbours
    obtain ⟨t, ht, hcorner⟩ := List.mem_flatMap.1 ((distinctOn_sublist _ _).subset hv)
    have hsame : q = place v := Except.ok.inj (hq.symm.trans (hplace t ht v hcorner))
    refine ⟨inner, outer, hcrossing, hmid, ?_, hsame ▸ hbrackets⟩
    rw [Lattice.distSq_point haxis, hdelta]

/-- The ball of radius one around the origin. -/
def unitBall : Solid ℚ := .ball ⟨0, 0, 0⟩ 1

/-- The surface of a ball, sampled at whole numbers. -/
theorem unitBall_is_bracketed : ∃ rough, contour unitBall ⟨1, 0, 2⟩ = .ok rough ∧
    rough.triangleCount = 56 ∧ 1 ≤ 3 ∧
    ∃ (l : Lattice ℚ) (refined : Mesh ℚ) (place : Vec3 ℚ → Vec3 ℚ),
      Lattice.around unitBall.bounds 1 = .ok l ∧ contour unitBall ⟨1, 3, 2⟩ = .ok refined ∧
      refined.triangles = rough.triangles.map (·.map place) ∧
      ∀ v ∈ rough.vertices, ∃ inner outer,
        l.Crossing unitBall inner outer ∧ v = (l.point inner).midpoint (l.point outer) ∧
          (l.point outer).distSq (l.point inner) = 1 * 1 ∧
          Brackets unitBall (1 / 2 ^ (3 + 1)) (l.point inner) (l.point outer) (place v) := by
  have hcount : (contour unitBall ⟨1, 0, 2⟩).map Mesh.triangleCount = .ok 56 := by decide +kernel
  cases h : contour unitBall ⟨1, 0, 2⟩ with
  | error e =>
    rw [h] at hcount
    cases hcount
  | ok rough =>
    rw [h] at hcount
    injection hcount with hcount
    exact ⟨rough, rfl, hcount, by decide, refinement_brackets_boundary h (by decide)⟩

end Isomesh
