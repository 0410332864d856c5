import Isomesh.Nearest
import Isomesh.Vec2

/-!
# Balls that touch segments and triangles

A ball touches a shape when some point of the shape is strictly nearer to its center than its
radius.

Models `circle_segment_collision` (`discTouchesSegment`), `sphere_segment_collision`,
`sphere_triangle_collision` (`Triangle.touchesBall`) and `point_in_triangle_prism` (`inPrism`).
-/

set_option autoImplicit false

namespace Isomesh

variable {K : Type} [Scalar K]

/-- Whether a disc of the plane touches the segment from `a` to `b`: at an end, or where the center
projects onto the segment. -/
def discTouchesSegment (center : Vec2 K) (r : K) (a b : Vec2 K) : Bool :=
  if (a - center).norm < r ∨ (b - center).norm < r then true
  else
    let v := b - a
    let lenSq := v.normSq
    if Scalar.isZero lenSq then false
    else
      let t := (center - a).dot v / lenSq
      Scalar.inUnit t && (a + v.scale t - center).norm < r

/-- Whether a ball touches the segment from `a` to `b`. -/
def ballTouchesSegment (center : Vec3 K) (r : K) (a b : Vec3 K) : Bool :=
  a.dist center < r || b.dist center < r || (closestOnSegment center a b).dist center < r

namespace Triangle

/-- Whether `p` lies in the prism over the triangle along `normal`: on the inner side of each side. -/
def inPrism (t : Triangle K) (normal p : Vec3 K) : Bool :=
  t.sides.all fun (a, b) => 0 ≤ ((b - a).cross (p - a)).dot normal

/-- Whether a ball touches one of the sides. -/
def sidesTouchBall (t : Triangle K) (center : Vec3 K) (r : K) : Bool :=
  t.sides.any fun (a, b) => ballTouchesSegment center r a b

/-- Whether a ball touches the triangle. A ball whose center is over the face touches it when the
plane is near enough; all others have to touch a side. -/
def touchesBall (t : Triangle K) (center : Vec3 K) (r : K) : Bool :=
  if t.corners.any fun v => v.dist center < r then true
  else
    let n := t.areaNormal
    let len := n.norm
    if 0 < len then
      let normal := n.divide len
      let height := (center - t.a).dot normal
      if r ≤ Scalar.abs height then false
      else if t.inPrism normal (center - normal.scale height) then true
      else t.sidesTouchBall center r
    else t.sidesTouchBall center r

end Triangle

end Isomesh
