import Isomesh.Triangle
import Isomesh.Vec2

/-!
# Where lines cross segments and triangles

Each crossing solves a linear system for the place on the line and the place on the shape. A line
whose system is singular, up to a threshold that scales with all lengths involved, runs along the
shape and does not cross it. Ends, sides and corners belong to the shape.

Models `ray_segment_collision` (`lineCrossesSegment`), `ray_triangle_collision` (`Triangle.crossedByLine`),
the `ray_collision` of a triangle (`crossedByRay`) and `RAY_DETERMINANT_EPSILON` (`parallelTolerance`).
-/

set_option autoImplicit false

namespace Isomesh

variable {K : Type} [Scalar K]

/-- The share of the product of all lengths up to which a determinant counts as zero. -/
def parallelTolerance : K := 1e-8

/-- Where the line `origin + t * direction` of the plane crosses the segment from `a` to `b`, as
the multiple `t`; it is negative behind the origin. -/
def lineCrossesSegment (origin direction a b : Vec2 K) : Option K := do
  let v := b - a
  let m := Mat2.ofColumns v (-direction)
  if Scalar.abs m.det ≤ parallelTolerance * v.norm * direction.norm then none
  else
    let place := (← m.inverse?).apply (origin - a)
    if Scalar.inUnit place.x then some place.y else none

namespace Triangle

/-- Where the line of a ray crosses the triangle, as a multiple of the direction; it is negative
behind the origin. -/
def crossedByLine (t : Triangle K) (ray : Ray K) : Option K := do
  let u := t.b - t.a
  let v := t.c - t.a
  let m := Mat3.ofColumns u v (-ray.direction)
  if Scalar.abs m.det ≤ parallelTolerance * u.norm * v.norm * ray.direction.norm then none
  else
    let place := (← m.inverse?).apply (ray.origin - t.a)
    if 0 ≤ place.x ∧ 0 ≤ place.y ∧ place.x + place.y ≤ 1 then some place.z else none

/-- Where a ray crosses the triangle, in its forward direction. -/
def crossedByRay (t : Triangle K) (ray : Ray K) : Option K :=
  (t.crossedByLine ray).filter fun s => 0 ≤ s

end Triangle

end Isomesh
