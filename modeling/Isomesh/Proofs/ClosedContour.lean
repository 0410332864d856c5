import Mathlib
import Isomesh.Proofs.RefinedVertices

/-!
# The surface of a solid is a closed manifold

In exact arithmetic every surface that sampling returns, refined or not, has each of its edges in two
triangles, which run along it in opposite directions. It does not matter which points the solid
contains. Only the border of the lattice has to be free of them, and sampling fails otherwise.

* `isClosed_contour`: the surface as a list of triangles.
-/

set_option autoImplicit false

namespace Isomesh

variable {K : Type} [Field K] [LinearOrder K] [IsStrictOrderedRing K] [FloorRing K] [SquareRoot K]

/-- The refined surface in the cells is closed if that in the cells is. -/
theorem isClosed_refine {solid : Solid K} {l : Lattice K} {steps : Nat} {refined : Mesh K}
    (hd : 0 < l.delta) (hclosed : IsClosed (l.directSurface solid))
    (h : refine solid l steps (.ofTriangles (l.directSurface solid)) = .ok refined) :
    IsClosed refined.triangles ∧ refined.Coherent := by
  obtain ⟨f, rfl, hf⟩ := refine_eq_ok h
  rw [Mesh.triangles_ofTriangles] at hf
  refine ⟨?_, Mesh.coherent_ofTriangles _⟩
  rw [Mesh.triangles_ofTriangles, Mesh.triangles_ofTriangles]
  refine hclosed.map fun t ht u hu p hp q hq heq => ?_
  obtain ⟨g, rfl⟩ := Lattice.exists_halfPoint ht hp
  obtain ⟨h, rfl⟩ := Lattice.exists_halfPoint hu hq
  have hon := Lattice.onEdge_refineVertex hd (hf t ht _ hp)
  rw [heq] at hon
  rw [hon.unique hd (Lattice.onEdge_refineVertex hd (hf u hu _ hq))]

/-- **The surface of a solid is closed.** -/
theorem isClosed_contour {solid : Solid K} {r : Resolution K} {mesh : Mesh K}
    (h : contour solid r = .ok mesh) : IsClosed mesh.triangles ∧ mesh.Coherent := by
  unfold contour at h
  obtain ⟨⟨l, rough⟩, hrough, h⟩ := exists_of_bind_eq_ok h
  obtain ⟨hl, hclean, rfl⟩ := roughContour_eq_ok hrough
  obtain ⟨-, hd⟩ := Lattice.delta_of_around hl
  have hclosed := Lattice.isClosed_directSurface hd hclean
  dsimp only at h
  split at h
  · cases h
    rw [Mesh.triangles_ofTriangles]
    exact ⟨hclosed, Mesh.coherent_ofTriangles _⟩
  · exact isClosed_refine hd hclosed h

/-- **The surface of a solid is a closed oriented manifold.** Two triangles have both ends of each side
as corners, and one of them runs along it in either direction. So the mesh needs no repair. -/
theorem contour_is_manifold {solid : Solid K} {r : Resolution K} {mesh : Mesh K}
    (h : contour solid r = .ok mesh) :
    (∀ t ∈ mesh.triangles, ∀ e ∈ t.sides, e.1 ≠ e.2 ∧
      (mesh.triangles.countP fun u => u.hasCorner e.1.key && u.hasCorner e.2.key) = 2 ∧
      mesh.triangles.countP (·.hasSide e.1 e.2) = 1 ∧
      mesh.triangles.countP (·.hasSide e.2 e.1) = 1) ∧
    mesh.needsRepair = false ∧ mesh.ensureManifold = .ok () := by
  obtain ⟨hclosed, hcoherent⟩ := isClosed_contour h
  have hside {t : Triangle K} (ht : t ∈ mesh.triangles) {e : Vec3 K × Vec3 K} (he : e ∈ t.sides) :
      e ∈ sidesOf mesh.triangles := List.mem_flatMap.2 ⟨t, ht, he⟩
  have hmanifold : mesh.needsRepair = false :=
    hcoherent.needsRepair_eq_false_iff.2 fun t ht e he => hclosed.countP_corners (hside ht he)
  refine ⟨fun t ht e he => ⟨hclosed.ne e (hside ht he), hclosed.countP_corners (hside ht he),
    hclosed.countP_hasSide (hside ht he), ?_⟩, hmanifold, hcoherent.ensureManifold_eq_ok hmanifold⟩
  exact hclosed.countP_hasSide (hclosed.swap_mem e (hside ht he))

/-- The lattice points at the ends of a diagonal of a face. -/
def diagonal : Solid ℚ where
  bounds := ⟨⟨0, 0, 0⟩, ⟨1, 1, 0⟩⟩
  contains p := p = ⟨0, 0, 0⟩ ∨ p = ⟨1, 1, 0⟩

/-- The refined surface around two points that are no neighbours but share a face. -/
theorem diagonal_is_manifold : ∃ mesh, contour diagonal ⟨1, 1, 2⟩ = .ok mesh ∧
    mesh.triangleCount = 16 ∧ mesh.needsRepair = false ∧ mesh.ensureManifold = .ok () := by
  have hcount : (contour diagonal ⟨1, 1, 2⟩).map Mesh.triangleCount = .ok 16 := by decide +kernel
  cases h : contour diagonal ⟨1, 1, 2⟩ with
  | error e =>
    rw [h] at hcount
    cases hcount
  | ok mesh =>
    rw [h] at hcount
    injection hcount with hcount
    exact ⟨mesh, rfl, hcount, (contour_is_manifold h).2⟩

end Isomesh
