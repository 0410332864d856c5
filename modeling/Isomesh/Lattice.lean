import Isomesh.Bounds
import Isomesh.Error

/-!
# Lattices

A lattice of points at equal distances along each axis, laid over a box so that the box is inside
the outermost layer. The points of an axis are computed from their number and not by repeated
addition, so cells that share a corner have it at the very same place.

`Lattice.around` refuses what cannot be sampled. Of several faults the one of the cell size is
reported first, then those of the axes in order.

Models `GridSpacer`: `new` (`around`), `counts`, `delta`, `coord`, `corner`, `offset`, `is_border`.
-/

set_option autoImplicit false

namespace Isomesh

/-- Points at equal distances along each axis. -/
structure Lattice (K : Type) where
  origin : Vec3 K
  /-- The distance between neighbouring points. -/
  delta : K
  /-- The number of points along the first axis. -/
  nx : Nat
  /-- The number of points along the second axis. -/
  ny : Nat
  /-- The number of points along the third axis. -/
  nz : Nat
  deriving DecidableEq, Repr

namespace Lattice

variable {K : Type} [Scalar K]

/-- Counts have 64 bits: all have to be below this. -/
def countLimit : Nat := 1 <<< 64

/-- Whether a scalar can be the edge length of a cell. -/
def isCellSize (delta : K) : Bool := Scalar.isFinite delta && 0 < delta

/-- The number of points along an axis: those that fit into the box, one more for the rest, and one
outside at each end. -/
def countAlong (box : Bounds K) (delta : K) (axis : Axis) : Except (Error K) Nat :=
  let lo := box.lo.get axis
  let hi := box.hi.get axis
  if !(Scalar.isFinite lo && Scalar.isFinite hi) then
    .error (.parameter (.boundsNotFinite lo hi axis))
  else if hi < lo then
    .error (.parameter (.boundsInverted lo hi axis))
  else
    let span := (hi - lo) / delta
    let count := Scalar.floorNat span + 3
    if Scalar.isFinite span && count < countLimit then .ok count
    else .error (.parameter (.axisTooLong axis))

/-- The lattice over a box. -/
def around (box : Bounds K) (delta : K) : Except (Error K) (Lattice K) := do
  if !isCellSize delta then
    throw (.parameter (.cellSize delta))
  let nx ← countAlong box delta .x
  let ny ← countAlong box delta .y
  let nz ← countAlong box delta .z
  if countLimit ≤ nx * ny then
    throw (.parameter (.planeTooLarge nx ny))
  return ⟨box.lo.map fun c => c - delta, delta, nx, ny, nz⟩

/-- The coordinate of the `i`-th point along an axis. -/
def coord (l : Lattice K) (axis : Axis) (i : Nat) : K := l.origin.get axis + (i : K) * l.delta

/-- A point of the lattice. -/
def corner (l : Lattice K) (i j k : Nat) : Vec3 K := ⟨l.coord .x i, l.coord .y j, l.coord .z k⟩

/-- How far a coordinate is past the last lattice point below it, in `[0, delta)`. -/
def offset (l : Lattice K) (axis : Axis) (c : K) : K := Scalar.rem (c - l.origin.get axis) l.delta

/-- Whether a point is on the outermost layer. -/
def isBorder (l : Lattice K) (i j k : Nat) : Bool :=
  i = 0 || j = 0 || k = 0 || i + 1 = l.nx || j + 1 = l.ny || k + 1 = l.nz

/-- The cells by their lowest corners: planes from below, rows in a plane, cells in a row. -/
def cells (l : Lattice K) : List (Nat × Nat × Nat) :=
  (List.range (l.nz - 1)).flatMap fun k =>
    (List.range (l.ny - 1)).flatMap fun j =>
      (List.range (l.nx - 1)).map fun i => (i, j, k)

end Lattice

end Isomesh
