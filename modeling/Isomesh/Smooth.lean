import Isomesh.Mesh.Faces
import Isomesh.Mesh.Relocate

/-!
# Smoothing

Each pass moves every vertex towards the mean of its neighbours, all at the same time: a vertex `p`
with mean `q` goes to `p * (1 - rate) + q * rate`. A vertex without neighbours stays. Which vertices
are neighbours is read off the mesh once, before the first pass.

Models `Blur`: its check of the rates, one pass (`relax`) and the passes in their order.
-/

set_option autoImplicit false

namespace Isomesh

variable {K : Type} [Scalar K]

/-- The mean of some points, summed in order. -/
def meanOf (ps : List (Vec3 K)) : Vec3 K := (Vec3.sum ps).divide (ps.length : K)

/-- Where a vertex goes whose neighbours are at the given places. -/
def relaxed (rate : K) (p : Vec3 K) (around : List (Vec3 K)) : Vec3 K :=
  if around.isEmpty then p else p.scale (1 - rate) + (meanOf around).scale rate

/-- One pass: `rings` has the numbers of the neighbours of each vertex. -/
def relax (rings : List (List Nat)) (coords : Array (Vec3 K)) (rate : K) : Array (Vec3 K) :=
  (coords.toList.zipWith (fun p ring => relaxed rate p (ring.filterMap (coords[·]?))) rings).toArray

namespace Mesh

/-- The places of the vertices after one pass for each rate. -/
def smoothedCoords (rates : List K) (m : Mesh K) : Array (Vec3 K) :=
  rates.foldl (relax m.rings) m.vertices.toArray

/-- Runs one smoothing pass for each rate. -/
def smooth (rates : List K) (m : Mesh K) : Except (Error K) (Mesh K) :=
  match rates.find? fun r => !Scalar.isFinite r with
  | some rate => .error (.input (.smoothingRate rate))
  | none =>
    let numbers := m.vertexNumbers
    let coords := m.smoothedCoords rates
    .ok (m.relocate fun k => numbers[k]?.bind (coords[·]?))

end Mesh

end Isomesh
