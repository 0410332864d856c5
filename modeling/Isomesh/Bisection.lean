import Isomesh.Scalar

/-!
# Bisection

Narrows a range between a place where a property holds and one where it does not. The property need
not be monotone: one end keeps it and the other does not.

Models the loop over `iterations` in `refine_vertex` of the contouring and in `sdf` of `ColliderSdf`.
-/

set_option autoImplicit false

namespace Isomesh

variable {K : Type} [Scalar K]

/-- The scalar halfway between two others. -/
def halfway (a b : K) : K := (a + b) / 2.0

/-- Halves the range between `yes`, where the property holds, and `no` a given number of times, and
returns the middle of what is left. -/
def bisect (holds : K → Bool) : Nat → K → K → K
  | 0, yes, no => halfway yes no
  | steps + 1, yes, no =>
    let mid := halfway yes no
    if holds mid then bisect holds steps mid no else bisect holds steps yes mid

end Isomesh
