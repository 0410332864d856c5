import Mathlib
import Isomesh.Proofs.CellSides

/-!
# The stencils face outward

A stencil has its vertices on the edges of the cube with one corner inside and one outside, and the
triangles at such a vertex face outward together: their area normals add up to a vector that leans from
the inside corner to the outside one. One of the triangles alone may lean the other way, so it is the
sum that refinement can rely on.

It is checked for the patterns only. A rotation keeps the triple products of vectors, and with them the
way a triangle leans.

* `StencilTriangle.lean`: how far a triangle leans from one corner to another.
* `Stencil.Outward`: what a stencil has to satisfy.
* `Rotation.KeepsVolume`: a permutation of the corners that keeps triple products.
* `CornerMask.stencil_outward`: the stencil of every set of corners.
-/

set_option autoImplicit false

namespace Isomesh

/-- The triple product of three vectors: the volume between them, by the right-hand rule. -/
def tripleProduct (u v w : Axis → Int) : Int :=
  (u .y * v .z - u .z * v .y) * w .x + (u .z * v .x - u .x * v .z) * w .y +
    (u .x * v .y - u .y * v .x) * w .z

/-- The way from the middle of one edge to that of another, in halves. -/
def middleTo (d e : Sym2 Corner) (axis : Axis) : Int := edgeAlong axis e - edgeAlong axis d

/-- The way from one corner to another. -/
def Corner.to (p q : Corner) (axis : Axis) : Int := q.along axis - p.along axis

namespace StencilTriangle

/-- The edges whose middles are the corners of the triangle. -/
def edges (t : StencilTriangle) : List (Sym2 Corner) := [t.a.ends, t.b.ends, t.c.ends]

/-- How far the area normal of the triangle, in quarters, leans from one corner to another. -/
def lean (t : StencilTriangle) (p q : Corner) : Int :=
  tripleProduct (middleTo t.a.ends t.b.ends) (middleTo t.a.ends t.c.ends) (p.to q)

end StencilTriangle

namespace Stencil

/-- The triangles at the middle of an edge. -/
def atMiddle (s : Stencil) (e : Sym2 Corner) : Stencil := s.filter fun t => t.edges.elem e

/-- How far the triangles at the edge between two corners lean from the one to the other. -/
def leanAt (s : Stencil) (p q : Corner) : Int := ((s.atMiddle s(p, q)).map (·.lean p q)).sum

/-- Whether the surface passes between the inside corners and the others, and faces the others. -/
structure Outward (m : CornerMask) (s : Stencil) : Prop where
  crossing : ∀ t ∈ s, ∀ e ∈ t.edges, ∃ p q, e = s(p, q) ∧ m.has p = true ∧ m.has q = false
  leans : ∀ p q, IsCubeEdge s(p, q) → m.has p = true → m.has q = false → 0 < s.leanAt p q

/-- The test behind `Outward`. -/
def outward (m : CornerMask) (s : Stencil) : Bool :=
  (s.all fun t => t.edges.all fun e => Corner.all.any fun p => Corner.all.any fun q =>
    e == s(p, q) && m.has p && !m.has q) &&
  CubeFace.all.all fun f => f.edges.all fun e => Corner.all.all fun p => Corner.all.all fun q =>
    e != s(p, q) || !m.has p || m.has q || decide (0 < s.leanAt p q)

theorem outward_of_outward {m : CornerMask} {s : Stencil} (h : outward m s = true) : Outward m s := by
  simp only [outward, Bool.and_eq_true, List.all_eq_true, List.any_eq_true, beq_iff_eq, Bool.or_eq_true,
    bne_iff_ne, Bool.not_eq_true', decide_eq_true_eq] at h
  obtain ⟨hcrossing, hleans⟩ := h
  refine ⟨fun t ht e he => ?_, fun p q ⟨f, hf⟩ hp hq => ?_⟩
  · obtain ⟨p, -, q, -, ⟨heq, hp⟩, hq⟩ := hcrossing t ht e he
    exact ⟨p, q, heq, hp, hq⟩
  · rcases hleans f f.mem_all _ hf p p.mem_all q q.mem_all with ((hne | hp') | hq') | hlean
    · exact absurd rfl hne
    · rw [hp] at hp'
      cases hp'
    · rw [hq] at hq'
      cases hq'
    · exact hlean

theorem outward_patterns : (patterns.all fun p => outward (.ofList p.1) p.2) = true := by
  decide +kernel

end Stencil

/-! ## Rotations keep the lean -/

namespace Rotation

/-- Whether a rotation keeps the triple products of the ways between edges and corners. -/
structure KeepsVolume (r : Rotation) : Prop where
  length : r.image.length = 8
  keeps : ∀ (a b c d : Sym2 Corner) (p q : Corner),
    tripleProduct (middleTo (a.map r.apply) (b.map r.apply)) (middleTo (c.map r.apply) (d.map r.apply))
      ((r.apply p).to (r.apply q)) = tripleProduct (middleTo a b) (middleTo c d) (p.to q)

theorem keepsVolume_identity : identity.KeepsVolume := by
  have happly : identity.apply = id := by
    funext c
    revert c
    decide
  refine ⟨rfl, fun a b c d p q => ?_⟩
  rw [happly, Sym2.map_id]
  rfl

theorem KeepsVolume.compose {outer inner : Rotation} (ho : outer.KeepsVolume) (hi : inner.KeepsVolume) :
    (outer.compose inner).KeepsVolume where
  length := (List.length_map _).trans hi.length
  keeps a b c d p q := by
    have happly : (outer.compose inner).apply = outer.apply ∘ inner.apply :=
      funext (apply_compose hi.length)
    rw [happly, Sym2.map_comp]
    exact (ho.keeps ..).trans (hi.keeps ..)

theorem keepsVolume_aboutZ : aboutZ.KeepsVolume := by
  have hx : ∀ c, ((aboutZ.apply c).along .x : Int) = c.along .y := by decide
  have hy : ∀ c, ((aboutZ.apply c).along .y : Int) = 1 - c.along .x := by decide
  have hz : ∀ c, ((aboutZ.apply c).along .z : Int) = c.along .z := by decide
  refine ⟨rfl, fun a b c d p q => ?_⟩
  induction a, b using Sym2.inductionOn₂ with | _ a a' b b' =>
  induction c, d using Sym2.inductionOn₂ with | _ c c' d d' =>
  simp only [tripleProduct, middleTo, Corner.to, Sym2.map_mk, edgeAlong, Sym2.lift_mk, Nat.cast_add,
    hx, hy, hz]
  ring

theorem keepsVolume_aboutX : aboutX.KeepsVolume := by
  have hx : ∀ c, ((aboutX.apply c).along .x : Int) = c.along .x := by decide
  have hy : ∀ c, ((aboutX.apply c).along .y : Int) = 1 - c.along .z := by decide
  have hz : ∀ c, ((aboutX.apply c).along .z : Int) = c.along .y := by decide
  refine ⟨rfl, fun a b c d p q => ?_⟩
  induction a, b using Sym2.inductionOn₂ with | _ a a' b b' =>
  induction c, d using Sym2.inductionOn₂ with | _ c c' d d' =>
  simp only [tripleProduct, middleTo, Corner.to, Sym2.map_mk, edgeAlong, Sym2.lift_mk, Nat.cast_add,
    hx, hy, hz]
  ring

theorem keepsVolume_of_mem_rotations : ∀ r ∈ rotations, r.KeepsVolume :=
  closure_induction (fun _ hr => keepsVolume_aboutZ.compose hr)
    (fun _ hr => keepsVolume_aboutX.compose hr) 8 fun _ hr =>
      List.mem_singleton.1 hr ▸ keepsVolume_identity

/-- Where an edge of the cube arrives, an edge of the cube left. -/
theorem Rigid.isCubeEdge_of_map {r : Rotation} (hr : r.Rigid) {e : Sym2 Corner}
    (h : IsCubeEdge (e.map r.apply)) : IsCubeEdge e := by
  obtain ⟨g, hg⟩ := h
  obtain ⟨n, hn⟩ := CubeFace.mem_edges.1 hg
  obtain ⟨f, k, hf⟩ := hr.reached g
  have hedge : (f.edge (n + k)).map r.apply = g.edge n := by
    rw [CubeFace.edge, CubeFace.edge, Sym2.map_mk, hf, add_right_comm, hf]
  exact ⟨f, CubeFace.mem_edges.2 ⟨n + k, Sym2.map.injective hr.injective (hedge.trans hn)⟩⟩

end Rotation

namespace Stencil

open Rotation

theorem edges_rotate (r : Rotation) (t : StencilTriangle) :
    (t.rotate r).edges = t.edges.map (·.map r.apply) := rfl

theorem leanAt_rotate {r : Rotation} (hr : r.Rigid) (hkeeps : r.KeepsVolume) (s : Stencil)
    (p q : Corner) :
    leanAt (s.map (·.rotate r)) (r.apply p) (r.apply q) = s.leanAt p q := by
  have hat : ∀ t : StencilTriangle,
      (t.rotate r).edges.elem s(r.apply p, r.apply q) = t.edges.elem s(p, q) := by
    intro t
    rw [edges_rotate, ← Sym2.map_mk, Bool.eq_iff_iff, List.elem_iff, List.elem_iff,
      List.mem_map_of_injective (Sym2.map.injective hr.injective)]
  have hlean : ∀ t : StencilTriangle, (t.rotate r).lean (r.apply p) (r.apply q) = t.lean p q :=
    fun t => hkeeps.keeps t.a.ends t.b.ends t.a.ends t.c.ends p q
  simp only [leanAt, atMiddle, List.filter_map, List.map_map, Function.comp_def, hat, hlean]

theorem Outward.rotate {r : Rotation} (hr : r.Rigid) (hkeeps : r.KeepsVolume) {m : CornerMask}
    {s : Stencil} (h : s.Outward m) : Outward (r.applyMask m) (s.map (·.rotate r)) where
  crossing := by
    rw [List.forall_mem_map]
    intro t ht
    rw [edges_rotate, List.forall_mem_map]
    intro e he
    obtain ⟨p, q, rfl, hp, hq⟩ := h.crossing t ht e he
    exact ⟨r.apply p, r.apply q, Sym2.map_mk .., (hr.has_applyMask m p).trans hp,
      (hr.has_applyMask m q).trans hq⟩
  leans p q hedge hp hq := by
    have honto : Function.Surjective r.apply := Finite.surjective_of_injective hr.injective
    obtain ⟨p, rfl⟩ := honto p
    obtain ⟨q, rfl⟩ := honto q
    rw [hr.has_applyMask] at hp hq
    rw [leanAt_rotate hr hkeeps]
    exact h.leans p q (hr.isCubeEdge_of_map hedge) hp hq

end Stencil

/-- **Every stencil faces outward.** -/
theorem CornerMask.stencil_outward (m : CornerMask) : m.stencil.Outward m := by
  rw [CornerMask.stencil_eq_find]
  have hmem := Stencil.find_mem_positions m
  simp only [Stencil.positions, List.mem_flatMap, List.mem_map, Prod.mk.injEq] at hmem
  obtain ⟨⟨corners, stencil⟩, hpattern, r, hr, hmask, hstencil⟩ := hmem
  have houtward := List.all_eq_true.1 Stencil.outward_patterns _ hpattern
  rw [← hstencil, ← hmask]
  exact (Stencil.outward_of_outward houtward).rotate (Rotation.rigid_of_mem_rotations r hr)
    (Rotation.keepsVolume_of_mem_rotations r hr)

end Isomesh
