import Mathlib
import Isomesh.Proofs.WeldCells
import Isomesh.Proofs.Welding

/-!
# Welding respects distances

Welding decides by cells, and its users think of distances. The two agree up to a factor of two: vertices
that are nearer than the welding distance along every axis share a cell, and vertices that share a cell
are no further apart than twice that distance. So welding misses nothing that is near, and what it brings
together is joined by a chain of vertices without a wide gap. The chain may be long; that is why a vertex
may move far.

* `Mesh.image_mem_vertices`, `Mesh.Canonical.fixed_of_vertex`: the vertices that are left.
* `Mesh.Canonical.far_of_ne`: the vertices that are left are apart.
* `Mesh.Canonical.chained`: the way of a vertex.
* `Mesh.weld_respects_distances`: the main result.
-/

set_option autoImplicit false

namespace Isomesh

namespace Mesh

/-- Whether a chain of vertices leads from one point to another, with steps no longer than a distance
along any axis. -/
def Chained {K : Type} [Field K] [LinearOrder K] [IsStrictOrderedRing K] [FloorRing K] [SquareRoot K]
    (m : Mesh K) (reach : K) : Vec3 K → Vec3 K → Prop :=
  Relation.ReflTransGen fun u v => u ∈ m.vertices ∧ v ∈ m.vertices ∧
    ∀ axis, |u.get axis - v.get axis| ≤ reach

variable {K : Type} [Field K] [LinearOrder K] [IsStrictOrderedRing K] [FloorRing K] [SquareRoot K]
  {m welded : Mesh K} {epsilon : K} {u v : Vec3 K}

theorem chained_of_connected (hpos : 0 < epsilon)
    (h : Connected (weldCells epsilon) m.vertices u v) : m.Chained (2 * epsilon) u v :=
  Relation.ReflTransGen.mono
    (fun _ _ ⟨hu, hv, hlink⟩ => ⟨hu, hv, abs_sub_le_of_linked hpos hlink⟩) _ _ h

/-! ## The vertices that are left -/

theorem image_mem_vertices {canon : Vec3 K → Vec3 K}
    (hwelded : welded.triangles = m.triangles.map (·.map canon)) (hv : v ∈ m.vertices) :
    canon v ∈ welded.vertices := by
  obtain ⟨t, ht, hvt⟩ := exists_corner_of_vertex hv
  have hmoved : t.map canon ∈ welded.triangles := hwelded ▸ List.mem_map_of_mem ht
  exact mem_vertices_of_corner hmoved (List.mem_map_of_mem (f := canon) hvt)

namespace Canonical

variable {cellsOf : Vec3 K → List WeldCell} {canon : Vec3 K → Vec3 K}

/-- The vertices that are left are old ones that stay where they are. -/
theorem fixed_of_vertex (h : m.Canonical cellsOf canon)
    (hwelded : welded.triangles = m.triangles.map (·.map canon)) (hv : v ∈ welded.vertices) :
    v ∈ m.vertices ∧ canon v = v := by
  obtain ⟨t, ht, hvt⟩ := exists_corner_of_vertex hv
  exact h.fixed_of_corner (hwelded ▸ ht) hvt

/-! ## Distances -/

/-- Nothing near is missed. -/
theorem eq_of_near (h : m.Canonical (weldCells epsilon) canon) (hpos : 0 < epsilon)
    (hu : u ∈ m.vertices) (hv : v ∈ m.vertices) (hnear : ∀ axis, |u.get axis - v.get axis| < epsilon) :
    canon u = canon v := by
  obtain ⟨cell, hcu, hcv⟩ := linked_of_abs_sub_lt hpos hnear
  exact (h.eq_iff u hu v hv).2 (.of_cell hu hv hcu hcv)

/-- Different vertices that are left are apart along some axis. -/
theorem far_of_ne (h : m.Canonical (weldCells epsilon) canon) (hpos : 0 < epsilon)
    (hwelded : welded.triangles = m.triangles.map (·.map canon)) (hu : u ∈ welded.vertices)
    (hv : v ∈ welded.vertices) (hne : u ≠ v) : ∃ axis, epsilon ≤ |u.get axis - v.get axis| := by
  obtain ⟨hum, hufixed⟩ := h.fixed_of_vertex hwelded hu
  obtain ⟨hvm, hvfixed⟩ := h.fixed_of_vertex hwelded hv
  by_contra hnear
  simp only [not_exists, not_le] at hnear
  exact hne (hufixed ▸ hvfixed ▸ h.eq_of_near hpos hum hvm hnear)

/-- Nothing far is joined directly. -/
theorem chained (h : m.Canonical (weldCells epsilon) canon) (hpos : 0 < epsilon)
    (hv : v ∈ m.vertices) : m.Chained (2 * epsilon) v (canon v) := by
  obtain ⟨-, -, -, hconn, -⟩ := h.first v hv
  exact chained_of_connected hpos hconn

end Canonical

/-! ## Main result -/

/-- **Welding respects distances**, for every mesh and every positive welding distance. Vertices that are
nearer along every axis become one, so the vertices that are left are as far apart as that along some
axis. Each vertex goes to one of those that are left, at the end of a chain of old vertices with steps of
twice the welding distance at most. -/
theorem weld_respects_distances (hpos : 0 < epsilon) (m : Mesh K) :
    ∃ welded canon, m.weld epsilon = .ok welded ∧
      welded.triangles = m.triangles.map (·.map canon) ∧
      (∀ u ∈ m.vertices, ∀ v ∈ m.vertices, (∀ axis, |u.get axis - v.get axis| < epsilon) →
        canon u = canon v) ∧
      (∀ u ∈ welded.vertices, ∀ v ∈ welded.vertices, u ≠ v →
        ∃ axis, epsilon ≤ |u.get axis - v.get axis|) ∧
      ∀ v ∈ m.vertices, canon v ∈ welded.vertices ∧ m.Chained (2 * epsilon) v (canon v) := by
  have hcanon := m.canonical_weldTarget (weldCells epsilon)
  have hwelded := m.triangles_weldBy (weldCells epsilon)
  refine ⟨_, _, m.weld_eq_ok (Exact.isFinite_eq_true epsilon) hpos, hwelded, ?_, ?_, ?_⟩
  · exact fun u hu v hv hnear => hcanon.eq_of_near hpos hu hv hnear
  · exact fun u hu v hv hne => hcanon.far_of_ne hpos hwelded hu hv hne
  · exact fun v hv => ⟨image_mem_vertices hwelded hv, hcanon.chained hpos hv⟩

/-- Two triangles whose tips are near each other across zero. With cells of width one, the first tip is
halfway between two borders and rounds away from zero. The tip of a third triangle is a full width from
the second, and joined to it all the same. -/
def straddlers : Mesh ℚ :=
  .ofTriangles [⟨⟨-1 / 2, 0, 0⟩, ⟨9, 0, 0⟩, ⟨0, 9, 0⟩⟩, ⟨⟨2 / 5, 0, 0⟩, ⟨9, 0, 0⟩, ⟨0, 9, 0⟩⟩,
    ⟨⟨7 / 5, 0, 0⟩, ⟨9, 0, 0⟩, ⟨0, 9, 0⟩⟩]

theorem straddlers_weld : ∃ welded, ∃ canon : Vec3 ℚ → Vec3 ℚ, straddlers.weld 1 = .ok welded ∧
    canon ⟨-1 / 2, 0, 0⟩ = canon ⟨2 / 5, 0, 0⟩ ∧
    straddlers.Chained (2 * 1) ⟨7 / 5, 0, 0⟩ (canon ⟨7 / 5, 0, 0⟩) ∧
    ∀ u ∈ welded.vertices, ∀ v ∈ welded.vertices, u ≠ v → ∃ axis, 1 ≤ |u.get axis - v.get axis| := by
  obtain ⟨welded, canon, hweld, -, hnear, hfar, hchain⟩ :=
    weld_respects_distances (zero_lt_one : (0 : ℚ) < 1) straddlers
  refine ⟨welded, canon, hweld, ?_, ?_, hfar⟩
  · refine hnear _ (by decide +kernel) _ (by decide +kernel) fun axis => ?_
    cases axis <;> norm_num [Vec3.get, abs_lt]
  · exact (hchain ⟨7 / 5, 0, 0⟩ (by decide +kernel)).2

end Mesh

end Isomesh
