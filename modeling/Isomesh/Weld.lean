import Isomesh.Mesh.Relocate

/-!
# Welding

Merges vertices that are close to each other. Space is divided into cells as wide as the welding
distance, and each vertex takes up the eight cells around it, so two vertices closer than that distance
along every axis have a cell in common. Vertices that share a cell, directly or through others, form a
cluster, and all of a cluster move to its first vertex.

* `Clustering`: the clusters by number, and for each cell the number of the cluster that has come to it.
* `Clustering.enter`: one vertex. The oldest cluster at its cells absorbs the others.
* `Mesh.weld`: the whole operation.

Models `WeldVertices`: `execute` (its scan `Clustering.enter`, its last table `Cluster.centers`), `cells`
(`weldCells`) and `WeldClass` (`Cluster`).
-/

set_option autoImplicit false

namespace Isomesh

variable {K : Type} [Scalar K]

/-- A cell, by its number along each axis. -/
abbrev WeldCell := Int × Int × Int

namespace WeldCell

instance : Ord WeldCell where
  compare := compareLex (compareOn fun c => c.1)
    (compareLex (compareOn fun c => c.2.1) (compareOn fun c => c.2.2))

instance : Std.TransOrd WeldCell :=
  inferInstanceAs (Std.TransCmp (compareLex (compareOn fun c : WeldCell => c.1)
    (compareLex (compareOn fun c => c.2.1) (compareOn fun c => c.2.2))))

instance : Std.LawfulEqOrd WeldCell where
  eq_of_compare {a b} h := by
    obtain ⟨hx, hyz⟩ := compareLex_eq_eq.mp h
    obtain ⟨hy, hz⟩ := compareLex_eq_eq.mp hyz
    exact Prod.ext (Std.LawfulEqOrd.eq_of_compare hx)
      (Prod.ext (Std.LawfulEqOrd.eq_of_compare hy) (Std.LawfulEqOrd.eq_of_compare hz))

end WeldCell

/-- The eight cells of a vertex: along each axis the nearest cell border and the next one. -/
def weldCells (epsilon : K) (p : Vec3 K) : List WeldCell :=
  let base (c : K) : Int := Scalar.roundInt (c / epsilon)
  [0, 1].flatMap fun dz => [0, 1].flatMap fun dy => [0, 1].map fun dx =>
    (base p.x + dx, base p.y + dy, base p.z + dz)

/-- Vertices that are to become one. -/
structure Cluster (K : Type) [Scalar K] where
  /-- Where they all go. -/
  center : Vec3 K
  members : List (VertexKey K)
  cells : List WeldCell

/-- The cluster after it has taken in a vertex and some other clusters. -/
def Cluster.absorb (c : Cluster K) (v : Vec3 K) (cells : List WeldCell) (near : List (Cluster K)) :
    Cluster K :=
  { c with
    members := c.members ++ v.key :: near.flatMap (·.members)
    cells := c.cells ++ cells ++ near.flatMap (·.cells) }

/-- Clusters in the course of a scan. -/
structure Clustering (K : Type) [Scalar K] where
  /-- The clusters by number, in the order in which they were started. One that has joined an older one
  leaves its place empty. -/
  places : Array (Option (Cluster K))
  /-- The number of the cluster that has come to a cell. -/
  owner : Std.TreeMap WeldCell Nat

namespace Clustering

/-- The start of a scan. -/
def empty : Clustering K := ⟨#[], ∅⟩

/-- The clusters that have not joined another. -/
def clusters (s : Clustering K) : List (Cluster K) := s.places.toList.filterMap id

/-- The numbers of the clusters that have come to some cells, the oldest first. -/
def touched (s : Clustering K) (cells : List WeldCell) : List Nat :=
  (Std.TreeSet.ofList (cells.filterMap fun cell => s.owner[cell]?)).toList

/-- Gives cells to a cluster, whichever they belonged to before. -/
def assign (owner : Std.TreeMap WeldCell Nat) (cells : List WeldCell) (i : Nat) :
    Std.TreeMap WeldCell Nat :=
  cells.foldl (fun owner cell => owner.insert cell i) owner

/-- Enters a vertex. The oldest of the clusters that have come to its cells takes it in together with all
others of them, whose cells now belong to that one; a vertex in new cells starts a cluster. -/
def enter (s : Clustering K) (v : Vec3 K) (cells : List WeldCell) : Clustering K :=
  match s.touched cells with
  | [] =>
    { places := s.places.push (some ⟨v, [v.key], cells⟩)
      owner := assign s.owner cells s.places.size }
  | target :: others =>
    let near := others.filterMap fun i => s.places[i]?.join
    let places := others.foldl (fun places i => places.setIfInBounds i none) s.places
    match places[target]?.join with
    | none => { s with places }
    | some oldest =>
      let c := oldest.absorb v cells near
      { places := places.setIfInBounds target (some c)
        owner := assign s.owner c.cells target }

end Clustering

namespace Cluster

/-- The clusters of vertices that take up the given cells. -/
def ofVertices (cellsOf : Vec3 K → List WeldCell) (vs : List (Vec3 K)) : List (Cluster K) :=
  (vs.foldl (fun s v => s.enter v (cellsOf v)) Clustering.empty).clusters

/-- Where the members of clusters go. -/
def centers (clusters : List (Cluster K)) : Std.TreeMap (VertexKey K) (Vec3 K) :=
  clusters.foldl (fun table c => c.members.foldl (fun table k => table.insert k c.center) table) ∅

end Cluster

namespace Mesh

/-- Merges the vertices that share cells, for any choice of cells. -/
def weldBy (cellsOf : Vec3 K → List WeldCell) (m : Mesh K) : Mesh K :=
  let table := Cluster.centers (Cluster.ofVertices cellsOf m.vertices)
  m.relocate fun k => table[k]?

/-- Merges vertices that are closer than `epsilon`. -/
def weld (epsilon : K) (m : Mesh K) : Except (Error K) (Mesh K) :=
  if Scalar.isFinite epsilon && 0 < epsilon then .ok (m.weldBy (weldCells epsilon))
  else .error (.input (.weldDistance epsilon))

end Mesh

end Isomesh
