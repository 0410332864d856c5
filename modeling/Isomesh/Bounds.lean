import Isomesh.Ray

/-!
# Axis-aligned boxes

* `Bounds.contains`: membership, boundary included.
* `Bounds.distSq`: the squared distance from a point to the box, zero inside.
* `Bounds.meetsRay`: whether the box has a point on a ray. Each axis limits the multiples of the
  direction at which the ray is between the two faces; `Span` holds what is left of the line after
  some axes, with `none` for an end that nothing has limited yet.

Models `in_bounds` (`contains`), `point_to_bounds_dist_squared` (`distSq`), `sphere_bounds_collision`
(`meetsBall`) and `ray_bounds_collision` (`meetsRay`).
-/

set_option autoImplicit false

namespace Isomesh

/-- The box of all points between two corners. -/
structure Bounds (K : Type) where
  lo : Vec3 K
  hi : Vec3 K
  deriving DecidableEq, Repr

/-- A range of multiples of a ray's direction. -/
structure Span (K : Type) where
  lo : Option K
  hi : Option K
  deriving DecidableEq, Repr

variable {K : Type} [Scalar K]

namespace Span

/-- The whole line. -/
def full : Span K := ⟨none, none⟩

/-- Raises a lower end to `t`; an undefined `t` limits nothing. -/
def raise (lo : Option K) (t : K) : Option K :=
  if t ≤ t then
    match lo with
    | none => some t
    | some l => if l < t then some t else some l
  else lo

/-- Lowers an upper end to `t`; an undefined `t` limits nothing. -/
def lower (hi : Option K) (t : K) : Option K :=
  if t ≤ t then
    match hi with
    | none => some t
    | some h => if t < h then some t else some h
  else hi

/-- Keeps what lies between two multiples, given in either order. -/
def clip (s : Span K) (t u : K) : Span K :=
  if u < t then ⟨raise s.lo u, lower s.hi t⟩ else ⟨raise s.lo t, lower s.hi u⟩

/-- Whether some multiple of the range is not negative. -/
def reachesForward (s : Span K) : Bool :=
  match s.lo, s.hi with
  | _, none => true
  | none, some h => 0 ≤ h
  | some l, some h => l ≤ h && 0 ≤ h

end Span

namespace Bounds

/-- Whether the box contains a point. -/
def contains (box : Bounds K) (p : Vec3 K) : Bool :=
  Axis.all.all fun axis => box.lo.get axis ≤ p.get axis && p.get axis ≤ box.hi.get axis

/-- The smallest box around two boxes. -/
def join (a b : Bounds K) : Bounds K := ⟨a.lo.lesser b.lo, a.hi.greater b.hi⟩

/-- How far a coordinate is outside the box along an axis. -/
def excess (box : Bounds K) (p : Vec3 K) (axis : Axis) : K :=
  let c := p.get axis
  if c < box.lo.get axis then box.lo.get axis - c
  else if box.hi.get axis < c then c - box.hi.get axis
  else 0

/-- The squared distance from a point to the box: no point of the box is nearer. -/
def distSq (box : Bounds K) (p : Vec3 K) : K := (Vec3.ofFn (box.excess p)).normSq

/-- Whether a ball can touch anything inside the box. -/
def meetsBall (box : Bounds K) (center : Vec3 K) (r : K) : Bool := box.distSq center ≤ r * r

/-- Limits a range to where the ray is between the two faces across an axis. A ray that runs along
the faces is between them everywhere or, for `none`, nowhere. -/
def clipRay (box : Bounds K) (ray : Ray K) (s : Span K) (axis : Axis) : Option (Span K) :=
  let o := ray.origin.get axis
  let rate := ray.direction.get axis
  if Scalar.isZero rate then
    if o < box.lo.get axis || box.hi.get axis < o then none else some s
  else
    some (s.clip ((box.lo.get axis - o) / rate) ((box.hi.get axis - o) / rate))

/-- Whether the ray, in its forward direction, passes through the box. -/
def meetsRay (box : Bounds K) (ray : Ray K) : Bool :=
  match Axis.all.foldlM (box.clipRay ray) Span.full with
  | none => false
  | some s => s.reachesForward

end Bounds

end Isomesh
