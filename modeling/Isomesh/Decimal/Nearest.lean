import Isomesh.Binary64

/-!
# Reading decimals

The double nearest to a decimal number, of two equally near the one whose last bit is zero.
-/

set_option autoImplicit false

namespace Isomesh.Decimal

/-- The double nearest to `mantissa * 10 ^ exponent`. -/
def toFloat (mantissa exponent : Int) : Float :=
  let size := Binary64.nearest (mantissa.natAbs * Nat.pow 10 exponent.toNat) (Nat.pow 10 (-exponent).toNat)
  if mantissa < 0 then -size else size

end Isomesh.Decimal
