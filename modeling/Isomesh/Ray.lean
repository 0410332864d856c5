import Isomesh.Vec3

/-!
# Rays

A ray starts at a point and runs along a direction of any length. Places on it are given as
multiples of that direction.

Models `Ray` with `at` (`pointAt`), and `RayCollision` (`Hit`).
-/

set_option autoImplicit false

namespace Isomesh

/-- A half-line. -/
structure Ray (K : Type) where
  origin : Vec3 K
  direction : Vec3 K
  deriving DecidableEq, Repr

/-- Where a ray meets a surface: the multiple of its direction, and the unit normal there. -/
structure Hit (K : Type) where
  scale : K
  normal : Vec3 K
  deriving DecidableEq, Repr

/-- The point at `t` times the direction from the origin. -/
def Ray.pointAt {K : Type} [Scalar K] (ray : Ray K) (t : K) : Vec3 K :=
  ray.origin + ray.direction.scale t

end Isomesh
