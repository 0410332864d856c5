import Mathlib
import Isomesh.Proofs.BracketedContour
import Isomesh.Proofs.CrossingVertices

/-!
# The normal at a vertex tells inside from outside

A surface that is not refined has each vertex in the middle of a lattice edge with one end inside. Some
stencils have triangles at a vertex that face the end inside. The normal at the vertex adds up all
triangles there, from up to four cells, and its component along the edge always points to the end
outside. Refinement reads the sign of that component to tell the ends apart.

* `Lattice.EdgeAt`: the lattice edge with a vertex in its middle.
* `Lattice.EdgeAt.eq_of_edgeCenter`: there is no other one.
* `Lattice.EdgeAt.get_axis`: a vector that leans towards the end outside, by its component alone.
* `vertex_normals_point_outward`: the main result.
-/

set_option autoImplicit false

namespace Isomesh

variable {K : Type} [Field K] [LinearOrder K] [IsStrictOrderedRing K] [FloorRing K] [SquareRoot K]

/-! ## The edge around a vertex -/

namespace Lattice

/-- The lattice edge with `v` in its middle goes along `axis`, from `inner` inside to `outer` outside. -/
structure EdgeAt (l : Lattice K) (solid : Solid K) (v : Vec3 K) (axis : Axis) (inner outer : Vec3 Nat) :
    Prop where
  crossing : l.Crossing solid inner outer
  along : Neighbours axis inner outer
  center : v = l.edgeCenter (inner, outer)

namespace EdgeAt

variable {l : Lattice K} {solid : Solid K} {v : Vec3 K} {axis : Axis} {inner outer : Vec3 Nat}

/-- The middle of a lattice edge is the middle of no other one. -/
theorem eq_of_edgeCenter (h : l.EdgeAt solid v axis inner outer) (hd : 0 < l.delta)
    {e : Vec3 Nat × Vec3 Nat} (he : e ∈ l.edges) (hcenter : l.edgeCenter e = v) :
    e = (inner, outer) ∨ e = (outer, inner) := by
  obtain ⟨n, m⟩ := e
  obtain ⟨⟨a, rfl⟩, -⟩ := mem_edges.1 he
  rw [h.center, edgeCenter, edgeCenter, midpoint_point, midpoint_point] at hcenter
  have hmiddle := (halfPoint_injective hd hcenter).symm
  rcases h.along.eq_or_swap (neighbours_next a n) hmiddle with ⟨hn, hm⟩ | ⟨hn, hm⟩
  · exact .inl (Prod.ext hn hm)
  · exact .inr (Prod.ext hn hm)

/-- The axis that refinement moves the vertex along. -/
theorem edgeAxis?_eq (h : l.EdgeAt solid v axis inner outer) (hd : 0 < l.delta) :
    l.edgeAxis? v = some axis :=
  h.center ▸ (l.edgeAxis?_midpoint hd h.along).1

/-- A vector leans towards the end outside if its component along the edge does. -/
theorem get_axis (h : l.EdgeAt solid v axis inner outer) (hd : 0 < l.delta) {u : Vec3 K}
    (hu : 0 < u.dot (l.point outer - l.point inner)) :
    outer = next axis inner ∧ 0 < u.get axis ∨ inner = next axis outer ∧ u.get axis < 0 := by
  rw [Vec3.dot_of_axis (get_point_sub_of_ne h.along), Vec3.get_sub, get_point, get_point] at hu
  rcases eq_next_of_neighbours h.along with hup | hdown
  · refine .inl ⟨hup, ?_⟩
    rw [hup, get_next_self] at hu
    push_cast at hu
    have hstep : 0 < u.get axis * l.delta := by linarith
    exact (mul_pos_iff_of_pos_right hd).1 hstep
  · refine .inr ⟨hdown, ?_⟩
    rw [hdown, get_next_self] at hu
    push_cast at hu
    have hstep : u.get axis * l.delta < 0 := by linarith
    exact neg_of_mul_neg_left hstep hd.le

end EdgeAt

end Lattice

/-! ## Main result -/

/-- Every vertex of a sampled surface is in the middle of a lattice edge, and the normal there leans
towards the end outside. -/
theorem Lattice.exists_edgeAt {l : Lattice K} (hd : 0 < l.delta) {solid : Solid K} {v : Vec3 K}
    (hv : v ∈ (Mesh.ofTriangles (l.directSurface solid)).vertices) :
    ∃ axis inner outer, l.EdgeAt solid v axis inner outer ∧
      0 < ((Mesh.ofTriangles (l.directSurface solid)).areaNormalAt v).dot
        (l.point outer - l.point inner) := by
  have htriangles := Mesh.triangles_ofTriangles (l.directSurface solid)
  obtain ⟨t, ht, hcorner⟩ := Mesh.exists_corner_of_vertex hv
  rw [htriangles] at ht
  obtain ⟨inner, outer, hcrossing, rfl⟩ := Lattice.exists_crossing ht hcorner
  obtain ⟨axis, halong⟩ := hcrossing.neighbours
  exact ⟨axis, inner, outer, ⟨hcrossing, halong, rfl⟩,
    Lattice.areaNormalAt_dot_pos hd (Mesh.coherent_ofTriangles _) htriangles hcrossing ht hcorner⟩

/-- **The normal at a vertex tells inside from outside**, whatever points the solid contains. A vertex of
a surface that is not refined is in the middle of one lattice edge, which is along the axis that refinement
moves the vertex on. The component of the normal along this axis is positive if the end outside comes
after the end inside, and negative if it comes before. It is never zero. -/
theorem vertex_normals_point_outward {solid : Solid K} {r : Resolution K} {mesh : Mesh K}
    (hrough : r.refinements = 0) (h : contour solid r = .ok mesh) :
    ∃ l, Lattice.around solid.bounds r.delta = .ok l ∧ ∀ v ∈ mesh.vertices, ∃ axis inner outer,
      l.EdgeAt solid v axis inner outer ∧
      (∀ e ∈ l.edges, l.edgeCenter e = v → e = (inner, outer) ∨ e = (outer, inner)) ∧
      l.edgeAxis? v = some axis ∧
      (outer = Lattice.next axis inner ∧ 0 < (mesh.areaNormalAt v).get axis ∨
        inner = Lattice.next axis outer ∧ (mesh.areaNormalAt v).get axis < 0) := by
  unfold contour at h
  obtain ⟨⟨l, rough⟩, hmesh, h⟩ := exists_of_bind_eq_ok h
  obtain ⟨hl, -, rfl⟩ := roughContour_eq_ok hmesh
  dsimp only at h
  rw [if_pos hrough] at h
  cases h
  obtain ⟨-, hd⟩ := Lattice.delta_of_around hl
  refine ⟨l, hl, fun v hv => ?_⟩
  obtain ⟨axis, inner, outer, hedge, hlean⟩ := Lattice.exists_edgeAt hd hv
  exact ⟨axis, inner, outer, hedge, fun e he => hedge.eq_of_edgeCenter hd he, hedge.edgeAxis?_eq hd,
    hedge.get_axis hd hlean⟩

/-- Four corners of a cube, none of them alone and not all in one plane. -/
def chain : Solid ℚ where
  bounds := ⟨⟨0, 0, 0⟩, ⟨1, 1, 1⟩⟩
  contains p := decide (p ∈ [(⟨0, 0, 0⟩ : Vec3 ℚ), ⟨0, 1, 0⟩, ⟨1, 1, 0⟩, ⟨1, 1, 1⟩])

/-- At one vertex of the surface around the four corners, a triangle faces the end inside. The normal
does not. -/
theorem chain_normal_points_outward : ∃ mesh, contour chain ⟨1, 0, 2⟩ = .ok mesh ∧
    (∃ t ∈ mesh.triangles, (⟨1 / 2, 0, 0⟩ : Vec3 ℚ) ∈ t.corners ∧ t.areaNormal.x < 0) ∧
    chain.contains ⟨0, 0, 0⟩ = true ∧ chain.contains ⟨1, 0, 0⟩ = false ∧
    0 < (mesh.areaNormalAt ⟨1 / 2, 0, 0⟩).x := by
  let l : Lattice ℚ := ⟨⟨-1, -1, -1⟩, 1, 4, 4, 4⟩
  let e : Vec3 Nat × Vec3 Nat := (⟨1, 1, 1⟩, ⟨2, 1, 1⟩)
  have haround : Lattice.around chain.bounds 1 = .ok l := by decide +kernel
  have hclean : l.firstStray? chain 0 l.nz = none := by decide +kernel
  have hmesh : contour chain ⟨1, 0, 2⟩ = .ok (.ofTriangles (l.directSurface chain)) := by
    rw [contour, roughContour_eq (r := ⟨1, 0, 2⟩) haround (by decide) (by decide), Lattice.directSweep,
      hclean]
    rfl
  have htriangle : ∃ t ∈ l.directSurface chain, (⟨1 / 2, 0, 0⟩ : Vec3 ℚ) ∈ t.corners ∧
      t.areaNormal.x < 0 := by decide +kernel
  obtain ⟨l', hl', hnormals⟩ := vertex_normals_point_outward rfl hmesh
  obtain rfl : l' = l := Except.ok.inj (hl'.symm.trans haround)
  have htriangles := Mesh.triangles_ofTriangles (l.directSurface chain)
  have hvertex : (⟨1 / 2, 0, 0⟩ : Vec3 ℚ) ∈ (Mesh.ofTriangles (l.directSurface chain)).vertices := by
    obtain ⟨t, ht, hcorner, -⟩ := htriangle
    exact Mesh.mem_vertices_of_corner (htriangles.symm ▸ ht) hcorner
  obtain ⟨axis, inner, outer, hedge, honly, haxis, hsign⟩ := hnormals _ hvertex
  obtain rfl : axis = .x := Option.some.inj (haxis.symm.trans (by decide +kernel))
  have hin : chain.contains (l.point ⟨1, 1, 1⟩) = true := by decide +kernel
  refine ⟨_, hmesh, htriangles.symm ▸ htriangle, by decide +kernel, by decide +kernel, ?_⟩
  rcases honly e (by decide +kernel) (by decide +kernel) with heq | heq
  · obtain ⟨rfl, rfl⟩ := Prod.mk.injEq .. ▸ heq
    exact (hsign.resolve_right fun hdown => by simp [Lattice.next, Vec3.set, Vec3.get] at hdown).2
  · obtain ⟨rfl, rfl⟩ := Prod.mk.injEq .. ▸ heq
    exact absurd hin (by rw [hedge.crossing.outside]; decide)

end Isomesh
