import Std.Data.TreeMap
import Std.Data.TreeSet

/-!
# Scalars

The numbers that coordinates are made of. Every definition of the library is written over
`Scalar`, so that one text runs on binary floating point and can be read over an exact ordered
field.

* `Scalar K`: arithmetic, decidable comparisons, square root, rounding to integers, remainder,
  a total order `totalCmp`, and `key`, the exact identity under which two coordinates are the same.
* Comparisons are used as they stand. Nothing assumes that one of `a ≤ b` and `b ≤ a` holds, so an
  undefined number, which compares with nothing, has a fixed way through every definition.

Models the operations on coordinates. `Scalar.key` is what `VertexKey` takes from each of them.
-/

set_option autoImplicit false

namespace Isomesh

/-- Numbers that geometry can be computed with. -/
class Scalar (K : Type) extends Zero K, One K, Add K, Sub K, Mul K, Div K, Neg K, LT K, LE K,
    NatCast K, OfScientific K where
  decLT : DecidableLT K
  decLE : DecidableLE K
  /-- The square root. -/
  sqrt : K → K
  /-- The largest whole number that is not above a non-negative scalar; `0` for all others. -/
  floorNat : K → Nat
  /-- The nearest whole number; a half goes away from zero. -/
  roundInt : K → Int
  /-- The remainder `rem x d`, in `[0, |d|)` up to rounding. -/
  rem : K → K → K
  /-- A total order that agrees with `≤` wherever `≤` decides. -/
  totalCmp : K → K → Ordering
  totalTrans : Std.TransCmp totalCmp
  /-- Identities of scalars. -/
  Key : Type
  /-- The identity of a scalar; both zeros have the same. -/
  key : K → Key
  keyOrd : Ord Key
  keyTrans : Std.TransOrd Key
  keyEq : Std.LawfulEqOrd Key

attribute [reducible, instance] Scalar.decLT Scalar.decLE Scalar.keyOrd

attribute [instance] Scalar.totalTrans Scalar.keyTrans Scalar.keyEq

namespace Scalar

variable {K : Type} [Scalar K]

/-- Whether `x` equals zero. -/
def isZero (x : K) : Bool := x ≤ 0 && 0 ≤ x

/-- Whether `x` is an ordinary number: subtracting an infinite or undefined scalar from itself does
not give zero. -/
def isFinite (x : K) : Bool := isZero (x - x)

/-- The absolute value. -/
def abs (x : K) : K := if x < 0 then -x else x

/-- Whether `x` lies in `[0, 1]`. -/
def inUnit (x : K) : Bool := 0 ≤ x && x ≤ 1

/-- The point of `[0, 1]` nearest to `x`; an undefined `x` stays. -/
def clampUnit (x : K) : K := if x < 0 then 0 else if 1 < x then 1 else x

/-- The smaller of two scalars, the second where they do not compare. -/
def lesser (a b : K) : K := if a ≤ b then a else b

/-- The larger of two scalars, the second where they do not compare. -/
def greater (a b : K) : K := if b ≤ a then a else b

end Scalar

end Isomesh
