import Isomesh.Cube.Rotation

/-!
# Stencils

How the surface runs through a cell, for every set of inside corners. Its vertices are the midpoints
of cube edges with one end inside and one outside; a stencil lists its triangles, each by three such
edges, with the outside in front.

`patterns` has one set of corners out of each class under rotation. The stencil of any other set
comes from the first pattern and the first rotation that lead to it.

Models `EdgeTriangle` (`StencilTriangle`), the list `CANONICAL` (`patterns`) and `CaseTable`: its `build`
(`find`, `table`) and `triangles` (`CornerMask.stencil`).
-/

set_option autoImplicit false

namespace Isomesh

/-- An edge of the cube, by its two corners. -/
structure CubeEdge where
  a : Corner
  b : Corner
  deriving DecidableEq, Repr

/-- A triangle between the midpoints of three cube edges. -/
structure StencilTriangle where
  a : CubeEdge
  b : CubeEdge
  c : CubeEdge
  deriving DecidableEq, Repr

/-- The edge between the places where its corners go. -/
def CubeEdge.rotate (r : Rotation) (e : CubeEdge) : CubeEdge := ⟨r.apply e.a, r.apply e.b⟩

namespace StencilTriangle

/-- The triangle between three edges, each given by its corners. -/
def between (a a' b b' c c' : Corner) : StencilTriangle := ⟨⟨a, a'⟩, ⟨b, b'⟩, ⟨c, c'⟩⟩

/-- The triangle turned with the cube. -/
def rotate (r : Rotation) (t : StencilTriangle) : StencilTriangle :=
  ⟨t.a.rotate r, t.b.rotate r, t.c.rotate r⟩

end StencilTriangle

/-- The surface inside one cell. -/
abbrev Stencil := List StencilTriangle

namespace Stencil

open StencilTriangle (between)

/-- One set of inside corners out of each class under rotation, with its stencil. -/
def patterns : List (List Corner × Stencil) :=
  [ ([], []),
    ([0], [between 0 1 0 2 0 4]),
    ([0, 1], [between 0 4 1 5 0 2, between 1 5 1 3 0 2]),
    ([0, 5], [between 0 1 0 2 0 4, between 5 7 1 5 4 5]),
    ([0, 7], [between 0 1 0 2 0 4, between 6 7 3 7 5 7]),
    ([1, 2, 3], [between 0 1 1 5 0 2, between 0 2 1 5 2 6, between 2 6 1 5 3 7]),
    ([0, 1, 7], [between 0 4 1 5 0 2, between 1 5 1 3 0 2, between 6 7 3 7 5 7]),
    ([1, 4, 7], [between 4 6 4 5 0 4, between 1 5 1 3 0 1, between 6 7 3 7 5 7]),
    ([0, 1, 2, 3], [between 0 4 1 5 3 7, between 0 4 3 7 2 6]),
    ([0, 2, 3, 6],
      [between 0 1 4 6 0 4, between 0 1 6 7 4 6, between 0 1 1 3 6 7, between 1 3 3 7 6 7]),
    ([1, 2, 5, 6],
      [between 0 2 2 3 6 7, between 0 2 6 7 4 6, between 0 1 4 5 5 7, between 5 7 1 3 0 1]),
    ([0, 2, 3, 7],
      [between 0 4 0 1 2 6, between 0 1 5 7 2 6, between 2 6 5 7 6 7, between 0 1 1 3 5 7]),
    ([1, 2, 3, 4],
      [between 0 1 1 5 0 2, between 0 2 1 5 2 6, between 2 6 1 5 3 7, between 4 5 0 4 4 6]),
    ([1, 2, 4, 7],
      [between 0 1 1 5 1 3, between 0 2 2 3 2 6, between 4 5 0 4 4 6, between 5 7 6 7 3 7]),
    ([1, 2, 3, 6],
      [between 0 2 0 1 4 6, between 0 1 3 7 4 6, between 0 1 1 5 3 7, between 4 6 3 7 6 7]),
    ([0, 2, 3, 5, 6],
      [between 0 1 4 6 0 4, between 0 1 6 7 4 6, between 0 1 1 3 6 7, between 1 3 3 7 6 7,
        between 5 7 1 5 4 5]),
    ([2, 3, 4, 5, 6],
      [between 5 7 1 5 0 4, between 0 4 6 7 5 7, between 0 2 6 7 0 4, between 0 2 3 7 6 7,
        between 0 2 1 3 3 7]),
    ([0, 4, 5, 6, 7], [between 1 5 0 1 0 2, between 0 2 2 6 1 5, between 1 5 2 6 3 7]),
    ([1, 2, 3, 4, 5, 6], [between 0 2 0 1 0 4, between 3 7 6 7 5 7]),
    ([1, 2, 3, 4, 6, 7],
      [between 0 2 4 5 0 4, between 0 2 5 7 4 5, between 0 2 1 5 5 7, between 0 1 1 5 0 2]),
    ([2, 3, 4, 5, 6, 7], [between 1 5 0 4 0 2, between 1 3 1 5 0 2]),
    ([1, 2, 3, 4, 5, 6, 7], [between 0 2 0 1 0 4]),
    ([0, 1, 2, 3, 4, 5, 6, 7], []) ]

/-- All patterns in all positions, in the order in which they are tried. -/
def positions : List (CornerMask × Stencil) :=
  patterns.flatMap fun (corners, stencil) =>
    rotations.map fun r => (r.applyMask (.ofList corners), stencil.map (·.rotate r))

/-- The stencil of a set of inside corners. -/
def find (m : CornerMask) : Stencil :=
  ((positions.find? fun entry => entry.1 = m).map (·.2)).getD []

/-- The stencils of all sets, by the number of the set. -/
def table : Array Stencil := CornerMask.tabulate find

end Stencil

/-- The stencil of a set of inside corners, from the table. -/
def CornerMask.stencil (m : CornerMask) : Stencil := Stencil.table.getD m.toNat []

theorem CornerMask.stencil_eq_find (m : CornerMask) : m.stencil = Stencil.find m :=
  CornerMask.getD_tabulate Stencil.find m []

end Isomesh
