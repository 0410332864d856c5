import Isomesh.Vec3

/-!
# What can go wrong

Each failure is a value that says what was wrong with what; `Error.message` words it. The numbers in
a message are written by a function that the caller gives, so that messages do not depend on how
scalars are represented.

Models `SolidMeshError` with the failures in it: `SamplingError`, `TopologyError`, `OperationError`,
`TessellationError`. Where the text of a failure is formed when it is raised, the fault is a value here.
-/

set_option autoImplicit false

namespace Isomesh

/-- Sampling parameters and boxes that no lattice can be laid over. -/
inductive ParameterFault (K : Type) where
  | cellSize (delta : K)
  | tooFewPlanes (planes : Nat)
  | boundsNotFinite (lo hi : K) (axis : Axis)
  | boundsInverted (lo hi : K) (axis : Axis)
  | axisTooLong (axis : Axis)
  | planeTooLarge (nx ny : Nat)
  | windowTooLarge (planes : Nat)
  | windowNotAllocatable
  deriving DecidableEq, Repr

/-- Arguments that an operation on surfaces refuses. -/
inductive InputFault (K : Type) where
  | coplanarity (epsilon : K)
  | weldDistance (epsilon : K)
  | smoothingRate (rate : K)
  | noTriangles
  deriving DecidableEq, Repr

/-- The failures of the library. -/
inductive Error (K : Type) where
  | parameter (fault : ParameterFault K)
  | input (fault : InputFault K)
  /-- A solid has a point on the border of the lattice, outside of its box. -/
  | solidOutsideBounds (point : Vec3 K)
  /-- Some edges do not belong to exactly two triangles. -/
  | nonManifold (edges : Nat)
  /-- A vertex is not between two neighbouring lattice points. -/
  | vertexNotOnEdge (vertex : Vec3 K)
  deriving DecidableEq, Repr

variable {K : Type}

/-- The words for a parameter fault. -/
def ParameterFault.message (write : K → String) : ParameterFault K → String
  | cellSize delta => "cell size must be positive and finite, got " ++ write delta
  | tooFewPlanes planes => "at least two planes must be cached, got " ++ planes.repr
  | boundsNotFinite lo hi axis =>
    "bounds must be finite, got [" ++ write lo ++ ", " ++ write hi ++ "] on axis " ++
      axis.index.repr
  | boundsInverted lo hi axis =>
    "bounds are inverted, got [" ++ write lo ++ ", " ++ write hi ++ "] on axis " ++ axis.index.repr
  | axisTooLong axis => "lattice too large on axis " ++ axis.index.repr
  | planeTooLarge nx ny => "lattice plane too large: " ++ nx.repr ++ " x " ++ ny.repr
  | windowTooLarge planes => "cache window of " ++ planes.repr ++ " planes is too large"
  | windowNotAllocatable =>
    "cannot allocate cache window: memory allocation failed because the computed capacity " ++
      "exceeded the collection's maximum"

/-- The words for an input fault. -/
def InputFault.message (write : K → String) : InputFault K → String
  | coplanarity epsilon => "coplanarity epsilon must be non-negative, got " ++ write epsilon
  | weldDistance epsilon => "weld epsilon must be positive, got " ++ write epsilon
  | smoothingRate rate => "blur rate must be finite, got " ++ write rate
  | noTriangles => "cannot build a tree without triangles"

/-- The words for a failure. -/
def Error.message (write : K → String) : Error K → String
  | parameter fault => "invalid tessellation parameters: " ++ fault.message write
  | input fault => "invalid input: " ++ fault.message write
  | solidOutsideBounds p =>
    "solid is inside at (" ++ write p.x ++ ", " ++ write p.y ++ ", " ++ write p.z ++
      "), outside of its bounds"
  | nonManifold edges =>
    "mesh is not manifold: " ++ edges.repr ++
      " edge(s) are not shared by exactly two triangles"
  | vertexNotOnEdge v =>
    "vertex (" ++ write v.x ++ ", " ++ write v.y ++ ", " ++ write v.z ++
      ") does not lie on a lattice edge"

end Isomesh
