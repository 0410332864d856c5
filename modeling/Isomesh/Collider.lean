import Isomesh.Crossing
import Isomesh.Overlap

/-!
# Surfaces that can be probed

A collider answers questions about a surface without showing how the surface is stored: how often a
ray crosses it, where the ray first meets it, and whether a ball touches it.

Models the interface `Collider` (`min` and `max`, `ray_collisions`, `first_ray_collision`,
`sphere_collision`) and how a single triangle answers it.
-/

set_option autoImplicit false

namespace Isomesh

/-- A surface that can be probed with rays and balls. -/
structure Collider (K : Type) where
  /-- A box around the surface. -/
  bounds : Bounds K
  /-- How many times a ray crosses the surface. -/
  crossings : Ray K → Nat
  /-- The crossing with the smallest multiple of the direction. -/
  firstHit : Ray K → Option (Hit K)
  /-- Whether some part of the surface is nearer than `r` to a center. -/
  touchesBall : Vec3 K → K → Bool

variable {K : Type} [Scalar K]

namespace Triangle

/-- How many times a ray crosses the triangle: once or not at all. -/
def crossings (t : Triangle K) (ray : Ray K) : Nat := if (t.crossedByRay ray).isSome then 1 else 0

/-- Where a ray meets the triangle. -/
def firstHit (t : Triangle K) (ray : Ray K) : Option (Hit K) :=
  (t.crossedByRay ray).map fun s => ⟨s, t.normal⟩

/-- A single triangle as a surface. -/
def collider (t : Triangle K) : Collider K := ⟨t.bounds, t.crossings, t.firstHit, t.touchesBall⟩

end Triangle

end Isomesh
