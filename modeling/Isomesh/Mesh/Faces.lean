import Isomesh.Mesh

/-!
# Vertex numbers

A mesh as a list of vertices and, for each triangle, the numbers of its corners in that list.

Models the table `index` and the lists `neighbors` (`rings`) at the start of a smoothing.
-/

set_option autoImplicit false

namespace Isomesh.Mesh

variable {K : Type} [Scalar K]

/-- The number of each vertex, in the order of `Mesh.vertices`. -/
def vertexNumbers (m : Mesh K) : Std.TreeMap (VertexKey K) Nat :=
  .ofList (m.vertices.zipIdx.map fun (p, n) => (p.key, n))

/-- The numbers of the corners of each triangle. -/
def faces (m : Mesh K) : List (List Nat) :=
  let numbers := m.vertexNumbers
  m.triangles.map fun t => t.keys.map fun k => numbers.getD k 0

/-- The vertices that share a triangle with vertex `n`, in the order of the triangles. -/
def ring (faces : List (List Nat)) (n : Nat) : List Nat :=
  distinctOn id ((faces.filter (·.contains n)).flatMap fun face => face.filter (· ≠ n))

/-- The neighbours of each vertex. -/
def rings (m : Mesh K) : List (List Nat) :=
  let faces := m.faces
  (List.range m.vertices.length).map (ring faces)

end Isomesh.Mesh
