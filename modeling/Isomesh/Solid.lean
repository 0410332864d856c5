import Isomesh.Collider

/-!
# Solids

A solid is a membership test together with a box that it promises not to leave.

* `Solid.ball`, `Solid.box`, `Solid.cylinder`: the elementary solids.
* `Solid.enclosedBy`: the inside of a closed surface. A point is inside when a ray from it crosses
  the surface an odd number of times.
* `Solid.union`: all points of several solids.
* `Solid.ballDepth`: how deep a point is inside a ball.

Models the interface `Solid` (`min` and `max`, `contains`) with `SphereSolid` (`ball`; its `sdf` is
`ballDepth`), `CuboidSolid`, `CylinderSolid`, `ColliderSolid` (`enclosedBy`, along `PROBE`) and
`JoinedSolid`.
-/

set_option autoImplicit false

namespace Isomesh

/-- A membership test and a box around everything that passes it. -/
structure Solid (K : Type) where
  bounds : Bounds K
  contains : Vec3 K → Bool

namespace Solid

variable {K : Type} [Scalar K]

/-- The ball around a center. -/
def ball (center : Vec3 K) (radius : K) : Solid K where
  bounds := ⟨center - .uniform radius, center + .uniform radius⟩
  contains p := p.distSq center ≤ radius * radius

/-- The signed distance from the surface of a ball, positive inside. -/
def ballDepth (center : Vec3 K) (radius : K) (p : Vec3 K) : K := radius - p.dist center

/-- The points of a box. -/
def box (bounds : Bounds K) : Solid K := ⟨bounds, bounds.contains⟩

/-- The cylinder between two cap centers; without points if the centers coincide. -/
def cylinder (base top : Vec3 K) (radius : K) : Solid K where
  bounds := ⟨base.lesser top - .uniform radius, base.greater top + .uniform radius⟩
  contains p :=
    let axis := top - base
    let lenSq := axis.normSq
    if Scalar.isZero lenSq then false
    else
      let rel := p - base
      let t := rel.dot axis / lenSq
      Scalar.inUnit t && (rel - axis.scale t).normSq ≤ radius * radius

/-- The direction of the rays that decide what a surface encloses, off all axes and diagonals. -/
def probe : Vec3 K := ⟨0.5224892708603626, 0.1049447724321451, 0.8461493851234567⟩

/-- The inside of a closed surface. -/
def enclosedBy (surface : Collider K) : Solid K where
  bounds := surface.bounds
  contains p := surface.bounds.contains p && surface.crossings ⟨p, probe⟩ % 2 = 1

/-- All points of several solids; a union of none has the origin as its box. -/
def union (solids : List (Solid K)) : Solid K where
  bounds :=
    match solids with
    | [] => ⟨.zero, .zero⟩
    | s :: rest => (rest.map bounds).foldl Bounds.join s.bounds
  contains p := solids.any fun s => s.contains p

end Solid

end Isomesh
