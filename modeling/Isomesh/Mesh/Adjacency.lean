import Isomesh.Mesh

/-!
# Neighbourhoods in a mesh

What meets at a vertex or an edge, and whether the surface is closed without branching: every edge
belongs to exactly two triangles.

All questions read the index. On a mesh that has not got one yet each question builds it anew, so
several questions are asked of `Mesh.indexed`.

Models `index` (`lookup`, `indexed`), `vertex_count`, `find_vertex` (`trianglesAt`), `find_edge`
(`trianglesAlong`), `vertex_area_normal`, `non_manifold_edges` (`irregularEdges`), `needs_repair` and
`ensure_manifold`.
-/

set_option autoImplicit false

namespace Isomesh.Mesh

variable {K : Type} [Scalar K]

/-- The index of the mesh, built from its triangles if there is none. -/
def lookup (m : Mesh K) : VertexIndex K :=
  match m.index with
  | some index => index
  | none => .ofArena m.arena

/-- The same mesh with its index at hand. -/
def indexed (m : Mesh K) : Mesh K := { m with index := some m.lookup }

/-- The number of distinct vertices. -/
def vertexCount (m : Mesh K) : Nat := m.lookup.size

/-- The triangles that have a point as a corner. -/
def trianglesAt (m : Mesh K) (p : Vec3 K) : List TriangleId := m.lookup.getD p.key []

/-- The triangles that have both points as corners. -/
def trianglesAlong (m : Mesh K) (a b : Vec3 K) : List TriangleId :=
  (m.trianglesAt a).filter fun id =>
    match m.get? id with
    | some t => t.hasCorner b.key
    | none => false

/-- The sum of the area normals of the triangles at a point. -/
def areaNormalAt (m : Mesh K) (p : Vec3 K) : Vec3 K :=
  .sum ((m.trianglesAt p).filterMap fun id => (m.get? id).map Triangle.areaNormal)

/-- Whether an edge belongs to exactly two triangles. -/
def isRegular (m : Mesh K) (s : Segment K) : Bool := (m.trianglesAlong s.lo s.hi).length = 2

/-- The number of edges that do not belong to exactly two triangles. -/
def irregularEdges (m : Mesh K) : Nat :=
  let m := m.indexed
  (m.edges.filter fun s => !m.isRegular s).length

/-- Whether some side of a triangle does not belong to exactly two triangles. -/
def needsRepair (m : Mesh K) : Bool :=
  let m := m.indexed
  m.triangles.any fun t => t.segments.any fun s => !m.isRegular s

/-- The same mesh after a look at all its edges. A mesh without triangles has none, and the look leaves
it without an index. -/
def inspected (m : Mesh K) : Mesh K := if m.isEmpty then m else m.indexed

/-- Demands that every edge belongs to exactly two triangles. -/
def ensureManifold (m : Mesh K) : Except (Error K) Unit :=
  match m.irregularEdges with
  | 0 => .ok ()
  | edges => .error (.nonManifold edges)

end Isomesh.Mesh
