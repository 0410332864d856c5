import Isomesh.Mesh.Adjacency

/-!
# Collapsing an edge

A collapse moves both ends of an edge to its midpoint: triangles at both ends disappear, and triangles
at one end are attached to the midpoint instead.

* `Mesh.canCollapse`: whether the surface stays what it was. Vertices next to both ends have to belong
  to a triangle at the edge; no two of the triangles that remain may end up with the same corners; and
  none may turn over.
* `Mesh.collapse`: the collapse itself. It also keeps a list of edges up to date: edges at the old ends
  leave it, edges at the midpoint enter.

Models `satisfies_link_condition` (`linksAgree`), `can_eliminate` (`canCollapse`) and `collapse`.
-/

set_option autoImplicit false

namespace Isomesh

variable {K : Type} [Scalar K]

namespace Mesh

/-- The triangles named by a list of identifiers, as far as they are still there. -/
def named (m : Mesh K) (ids : List TriangleId) : List (Triangle K) := ids.filterMap m.get?

/-- The keys of the corners of some triangles, other than the ends of an edge. -/
def otherCorners (s : Segment K) (ts : List (Triangle K)) : List (VertexKey K) :=
  (ts.flatMap Triangle.keys).filter fun k => !s.hasEnd k

/-- Whether every vertex next to both ends belongs to a triangle at the edge. -/
def linksAgree (m : Mesh K) (s : Segment K) : Bool :=
  let atLo := otherCorners s (m.named (m.trianglesAt s.lo))
  let atHi := otherCorners s (m.named (m.trianglesAt s.hi))
  let apexes := otherCorners s (m.named (m.trianglesAlong s.lo s.hi))
  atLo.all fun k => !atHi.contains k || apexes.contains k

/-- The sides across from `p` of the triangles at `p` but not at `q`. -/
def outerSides (m : Mesh K) (p q : Vec3 K) : List (Vec3 K × Vec3 K) :=
  (m.named (m.trianglesAt p)).filterMap fun t =>
    if t.hasCorner q.key then none else (t.placeOf p.key).map t.following

/-- Whether the triangle over a side looks to opposite directions from the two ends of an edge. -/
def turnsOver (s : Segment K) (side : Vec3 K × Vec3 K) : Bool :=
  let normalFrom (p : Vec3 K) : Vec3 K := Triangle.areaNormal ⟨side.1, side.2, p⟩
  (normalFrom s.lo).dot (normalFrom s.hi) < 0

/-- Whether an edge can be collapsed. -/
def canCollapse (m : Mesh K) (s : Segment K) : Bool :=
  let sides := m.outerSides s.lo s.hi ++ m.outerSides s.hi s.lo
  m.linksAgree s
    && (sides.map fun side => (Segment.between side.1 side.2).key).Nodup
    && !sides.any (turnsOver s)

end Mesh

/-- Edges by their keys, in the order of the keys. -/
abbrev EdgeSet (K : Type) [Scalar K] := Std.TreeMap (EdgeKey K) (Segment K)

namespace EdgeSet

/-- The set of the edges of a list; of several with the same key the first. -/
def ofEdges (es : List (Segment K)) : EdgeSet K := es.foldl (fun set s => set.insertIfNew s.key s) ∅

/-- The set without the sides of a triangle that touch an edge. -/
def withoutTouching (set : EdgeSet K) (s : Segment K) (t : Triangle K) : EdgeSet K :=
  t.segments.foldl (fun set side => if side.touches s then set.erase side.key else set) set

end EdgeSet

/-- A mesh in the course of a collapse, the edges that are waiting, and those that have come up. -/
structure Collapsing (K : Type) [Scalar K] where
  mesh : Mesh K
  waiting : EdgeSet K
  /-- The edges at the midpoint, in the order in which they came up. -/
  added : List (Segment K)

namespace Collapsing

/-- Attaches a triangle to the midpoint of an edge instead of the corner at a place. -/
def attach (c : Collapsing K) (s : Segment K) (t : Triangle K) (place : Place) : Collapsing K :=
  let (p, q) := t.following place
  let sides := [Segment.between s.mid p, Segment.between s.mid q]
  { mesh := (c.mesh.add (t.replace place s.mid)).2
    waiting := sides.foldl (fun set side => set.insertIfNew side.key side) c.waiting
    added := c.added ++ sides }

/-- Treats one triangle at an edge: it disappears, and comes back at the midpoint unless it is at both
ends. -/
def visit (s : Segment K) (c : Collapsing K) (id : TriangleId) (atBothEnds : Bool) : Collapsing K :=
  match c.mesh.remove? id with
  | none => c
  | some (t, mesh) =>
    let c := { c with mesh, waiting := c.waiting.withoutTouching s t }
    if atBothEnds then c
    else
      match (t.placeOf s.lo.key).orElse fun _ => t.placeOf s.hi.key with
      | none => c
      | some place => c.attach s t place

end Collapsing

namespace Mesh

/-- Collapses an edge. The triangles are treated in the order in which they are listed at the first
end, then at the second. -/
def collapse (m : Mesh K) (s : Segment K) (waiting : EdgeSet K) : Collapsing K :=
  let atLo := m.trianglesAt s.lo
  let atHi := m.trianglesAt s.hi
  let ids := atLo.map (fun id => (id, atHi.contains id)) ++
    (atHi.filter fun id => !atLo.contains id).map fun id => (id, false)
  ids.foldl (fun c (id, both) => c.visit s id both) ⟨m, waiting, []⟩

end Mesh

end Isomesh
