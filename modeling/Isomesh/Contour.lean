import Isomesh.Bisection
import Isomesh.Cube.Stencil
import Isomesh.Lattice.Window
import Isomesh.Mesh.Adjacency
import Isomesh.Mesh.Relocate

/-!
# The surface of a solid

`contour` samples a solid on a lattice and returns its boundary as a closed mesh of triangles, with the
outside in front. Every vertex is on an edge between two neighbouring lattice points of which one is
inside: first halfway, then, where refinement is asked for, moved along that edge towards the true
boundary.

* `Resolution`: how finely to sample.
* `sweep`: the triangles of all cells, in the order of the cells.
* `refine`: moves the vertices. The normal of the surface at a vertex tells which of the two lattice
  points is inside.

Models `MarchingCubes`: `execute` (`contour`, its three loops `sweep`), `cell_mask`, `cell_corners`, `refine`
and `refine_vertex`; and `TessellationParams` (`Resolution`) with its defaults and `validate`.
-/

set_option autoImplicit false

namespace Isomesh

variable {K : Type} [Scalar K]

/-- How finely a solid is sampled. -/
structure Resolution (K : Type) where
  /-- The edge length of a cell. -/
  delta : K
  /-- How many times the place of a vertex is narrowed to one half. -/
  refinements : Nat
  /-- How many planes of lattice points are kept at a time. -/
  planes : Nat
  deriving DecidableEq, Repr

/-- Cells of a twentieth, no refinement, ten planes. -/
def Resolution.default : Resolution K := ⟨0.05, 0, 10⟩

/-- Demands a usable cell size, and two planes so that a cell fits between them. -/
def Resolution.validate (r : Resolution K) : Except (Error K) Unit :=
  if !Lattice.isCellSize r.delta then .error (.parameter (.cellSize r.delta))
  else if r.planes < 2 then .error (.parameter (.tooFewPlanes r.planes))
  else .ok ()

namespace Lattice

/-- A corner of the cell whose lowest corner is `(i, j, k)`. -/
def cellCorner (l : Lattice K) (i j k : Nat) (c : Corner) : Vec3 K :=
  l.corner (i + c.x) (j + c.y) (k + c.z)

/-- The midpoint of an edge of a cell. -/
def edgeMidpoint (l : Lattice K) (i j k : Nat) (e : CubeEdge) : Vec3 K :=
  (l.cellCorner i j k e.a).midpoint (l.cellCorner i j k e.b)

/-- A stencil triangle, put into a cell. -/
def placeTriangle (l : Lattice K) (i j k : Nat) (t : StencilTriangle) : Triangle K :=
  ⟨l.edgeMidpoint i j k t.a, l.edgeMidpoint i j k t.b, l.edgeMidpoint i j k t.c⟩

/-- The surface inside a cell with a given set of inside corners. -/
def cellSurface (l : Lattice K) (i j k : Nat) (m : CornerMask) : List (Triangle K) :=
  m.stencil.map (l.placeTriangle i j k)

end Lattice

/-- The inside corners of a cell. -/
def cellMask (i j k : Nat) : Sampling K CornerMask :=
  Corner.all.foldlM (fun m c => do
    return if ← Window.get (i + c.x) (j + c.y) (k + c.z) then m.insert c else m) 0

/-- The surface inside all cells of a lattice. -/
def sweep (l : Lattice K) : Sampling K (List (Triangle K)) :=
  l.cells.flatMapM fun (i, j, k) => do
    return l.cellSurface i j k (← cellMask i j k)

namespace Lattice

/-- Whether a coordinate is near the middle between two lattice points. -/
def isBetween (l : Lattice K) (axis : Axis) (c : K) : Bool :=
  let offset := l.offset axis c
  l.delta / 4.0 < offset && offset < 3.0 * l.delta / 4.0

/-- The axis along which a vertex is between two lattice points. -/
def edgeAxis? (l : Lattice K) (v : Vec3 K) : Option Axis :=
  Axis.all.find? fun axis => l.isBetween axis (v.get axis)

/-- Moves a vertex along its lattice edge. Where the normal does not tell which end is inside, the
solid is asked. -/
def refineVertex (l : Lattice K) (solid : Solid K) (steps : Nat) (v normal : Vec3 K) :
    Except (Error K) (Vec3 K) :=
  match l.edgeAxis? v with
  | none => .error (.vertexNotOnEdge v)
  | some axis =>
    let lower := v.get axis - l.offset axis (v.get axis)
    let upper := lower + l.delta
    let inside (c : K) : Bool := solid.contains (v.set axis c)
    let lowerInside := if Scalar.isZero (normal.get axis) then inside lower else 0 < normal.get axis
    let c := if lowerInside then bisect inside steps lower upper else bisect inside steps upper lower
    .ok (v.set axis c)

end Lattice

/-- Moves all vertices of a surface along their lattice edges. -/
def refine (solid : Solid K) (l : Lattice K) (steps : Nat) (mesh : Mesh K) :
    Except (Error K) (Mesh K) := do
  let mesh := mesh.indexed
  let moved ← mesh.vertices.mapM fun v => do
    return (v.key, ← l.refineVertex solid steps v (mesh.areaNormalAt v))
  let table : Std.TreeMap (VertexKey K) (Vec3 K) := .ofList moved
  return mesh.relocate fun k => table[k]?

/-- The surface of a solid, with every vertex halfway between two lattice points. -/
def roughContour (solid : Solid K) (r : Resolution K) :
    Except (Error K) (Lattice K × Mesh K) := do
  r.validate
  let lattice ← Lattice.around solid.bounds r.delta
  let window ← Window.onto solid lattice r.planes
  let triangles ← ((sweep lattice).run.run window).1
  return (lattice, .ofTriangles triangles)

/-- The surface of a solid. -/
def contour (solid : Solid K) (r : Resolution K) : Except (Error K) (Mesh K) := do
  let (lattice, mesh) ← roughContour solid r
  if r.refinements = 0 then return mesh
  else refine solid lattice r.refinements mesh

end Isomesh
