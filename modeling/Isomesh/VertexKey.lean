import Isomesh.Vec3
import Isomesh.Distinct

/-!
# Vertex keys

A vertex of a surface is known by its coordinates alone. `Vec3.key` is the exact identity of a
point: two points have the same key when all three coordinates have. Keys are ordered by the first
coordinate, then the second, then the third.

Models `VertexKey` with its order.
-/

set_option autoImplicit false

namespace Isomesh

/-- The identity of a point. -/
structure VertexKey (K : Type) [Scalar K] where
  x : Scalar.Key K
  y : Scalar.Key K
  z : Scalar.Key K

variable {K : Type} [Scalar K]

/-- The identity of a point. -/
def Vec3.key (p : Vec3 K) : VertexKey K := ⟨Scalar.key p.x, Scalar.key p.y, Scalar.key p.z⟩

namespace VertexKey

instance : Ord (VertexKey K) where
  compare := compareLex (compareOn x) (compareLex (compareOn y) (compareOn z))

instance : Std.TransOrd (VertexKey K) :=
  inferInstanceAs (Std.TransCmp (compareLex (compareOn VertexKey.x)
    (compareLex (compareOn VertexKey.y) (compareOn VertexKey.z))))

instance : Std.LawfulEqOrd (VertexKey K) where
  eq_of_compare {a b} h := by
    simp only [compare, compareLex_eq_eq, compareOn, Std.LawfulEqCmp.compare_eq_iff_eq] at h
    cases a
    cases b
    simp_all

instance : DecidableEq (VertexKey K) := fun a b =>
  decidable_of_iff (compare a b = .eq) Std.LawfulEqCmp.compare_eq_iff_eq

end VertexKey

end Isomesh
