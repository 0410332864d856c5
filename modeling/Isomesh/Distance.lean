import Isomesh.Bisection
import Isomesh.Solid
import Isomesh.Tree

/-!
# Signed distances

How far a point is from a closed surface, positive inside and negative outside.

* `Tree.signedDist`, `Tree.signedNearest`: from the nearest point of a tree of triangles.
* `Collider.probedDist`: for any surface, as the radius at which a ball around the point begins to
  touch it. The radius is halved or doubled, from one on, until the answer changes, and the range found
  is bisected.

Models `MeshSdf`: `sign`, `sdf` (`signedDist`), `point_sdf` (`signedNearest`); and `ColliderSdf`:
`with_iterations` (`searchSteps`), `bracket` (`bracketTouch`), `sdf` (`probedDist`).
-/

set_option autoImplicit false

namespace Isomesh

variable {K : Type} [Scalar K]

namespace Tree

/-- Positive one inside the surface, negative one outside. -/
def sign (tree : Tree K) (p : Vec3 K) : K :=
  if (Solid.enclosedBy tree.collider).contains p then 1 else -1

/-- The signed distance to the surface. -/
def signedDist (tree : Tree K) (p : Vec3 K) : K := tree.sign p * tree.dist p

/-- The nearest point of the surface, and the signed distance to it. -/
def signedNearest (tree : Tree K) (p : Vec3 K) : Vec3 K × K :=
  let c := tree.closest p
  (c, tree.sign p * c.dist p)

end Tree

/-- The last two radii when the answer changes, or when the steps are used up. Radii shrink while the
first answer was yes and grow while it was no. -/
def changeOfTouch (touches : K → Bool) (initial : Bool) : Nat → K → K → K × K
  | 0, last, next => (last, next)
  | steps + 1, _, next =>
    let further := if initial then next / 2.0 else next * 2.0
    if touches further = initial then changeOfTouch touches initial steps next further
    else (next, further)

/-- A smaller and a larger radius between which the answer changes, if the steps suffice. -/
def bracketTouch (touches : K → Bool) (steps : Nat) : K × K :=
  let (last, next) := changeOfTouch touches (touches 1) steps 1 1
  if last < next then (last, next) else (next, last)

namespace Collider

/-- The number of steps in each phase of the search; `0` stands for 32. -/
def searchSteps (steps : Nat) : Nat := if steps = 0 then 32 else steps

/-- The signed distance to a surface, found by probing it with balls. -/
def probedDist (surface : Collider K) (steps : Nat) (p : Vec3 K) : K :=
  let touches := surface.touchesBall p
  let (lo, hi) := bracketTouch touches steps
  let dist := bisect touches steps hi lo
  if (Solid.enclosedBy surface).contains p then dist else -dist

end Collider

end Isomesh
