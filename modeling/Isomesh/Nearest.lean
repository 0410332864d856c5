import Isomesh.Triangle

/-!
# Nearest points

* `closestOnSegment`: projects onto the line and stops at the ends.
* `Triangle.closest`: finds the part of the triangle - a corner, a side or the face - whose region of
  space holds the point. A triangle without area answers with its sides.

Models `closest_point_on_segment`, `closest_point_on_triangle` and `closest_point_on_degenerate`
(`closestOnSides`), and the `closest` and `dist` of a triangle.
-/

set_option autoImplicit false

namespace Isomesh

variable {K : Type} [Scalar K]

/-- The point of the segment from `a` to `b` nearest to `p`; `a` if the segment has no length. -/
def closestOnSegment (p a b : Vec3 K) : Vec3 K :=
  let v := b - a
  let lenSq := v.normSq
  if Scalar.isZero lenSq then a
  else a + v.scale (Scalar.clampUnit ((p - a).dot v / lenSq))

/-- The nearer of two points to `p`, the first of two equally near. -/
def nearerTo (p x y : Vec3 K) : Vec3 K :=
  if Scalar.totalCmp (x.distSq p) (y.distSq p) = .gt then y else x

namespace Triangle

/-- The point of the three sides nearest to `p`. -/
def closestOnSides (t : Triangle K) (p : Vec3 K) : Vec3 K :=
  nearerTo p
    (nearerTo p (closestOnSegment p t.a t.b) (closestOnSegment p t.b t.c))
    (closestOnSegment p t.c t.a)

/-- The point of the triangle nearest to `p`. -/
def closest (t : Triangle K) (p : Vec3 K) : Vec3 K :=
  let ab := t.b - t.a
  let ac := t.c - t.a
  let d1 := ab.dot (p - t.a)
  let d2 := ac.dot (p - t.a)
  let d3 := ab.dot (p - t.b)
  let d4 := ac.dot (p - t.b)
  let d5 := ab.dot (p - t.c)
  let d6 := ac.dot (p - t.c)
  -- Twice the signed areas of the parts into which the foot of `p` divides the triangle.
  let va := d3 * d6 - d5 * d4
  let vb := d5 * d2 - d1 * d6
  let vc := d1 * d4 - d3 * d2
  if d1 ≤ 0 ∧ d2 ≤ 0 then t.a
  else if 0 ≤ d3 ∧ d4 ≤ d3 then t.b
  else if vc ≤ 0 ∧ 0 ≤ d1 ∧ d3 ≤ 0 then t.a + ab.scale (d1 / (d1 - d3))
  else if 0 ≤ d6 ∧ d5 ≤ d6 then t.c
  else if vb ≤ 0 ∧ 0 ≤ d2 ∧ d6 ≤ 0 then t.a + ac.scale (d2 / (d2 - d6))
  else if va ≤ 0 ∧ 0 ≤ d4 - d3 ∧ 0 ≤ d5 - d6 then
    t.b + (t.c - t.b).scale ((d4 - d3) / ((d4 - d3) + (d5 - d6)))
  else
    let whole := va + vb + vc
    if Scalar.isZero whole then t.closestOnSides p
    else t.a + ab.scale (vb / whole) + ac.scale (vc / whole)

/-- The distance from `p` to the triangle. -/
def dist (t : Triangle K) (p : Vec3 K) : K := (t.closest p).dist p

end Triangle

end Isomesh
