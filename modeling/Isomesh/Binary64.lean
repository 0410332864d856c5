import Isomesh.Scalar

/-!
# Binary floating point in 64 bits

* `Binary64.Parts`: a double as undefined, infinite, or a whole number times a power of two.
* `Binary64.nearest`: the double nearest to a fraction, of two equally near the one whose last bit
  is zero.
* `Binary64.remainder`: the exact remainder of a division whose quotient is cut off toward zero.
* `Scalar Float`: doubles as scalars. The key of a double is its bit pattern, `-0` counting as `0`,
  so negative numbers come after the positive ones; `totalCmp` puts them in numerical order, `-0`
  before `0`.

Models what is used of the operations on doubles: `floor`, `round`, `sqrt`, `rem_euclid`, `total_cmp` and
`to_bits`. The arithmetic itself is that of `Float`.
-/

set_option autoImplicit false

namespace Isomesh.Binary64

/-- What the bits of a double say. -/
inductive Parts where
  | undefined
  | infinite (negative : Bool)
  /-- The number `mantissa * 2 ^ exponent`, with its sign. -/
  | finite (negative : Bool) (mantissa : Nat) (exponent : Int)
  deriving DecidableEq, Repr

/-- Reads sign, exponent and fraction off a bit pattern. -/
def Parts.ofBits (bits : UInt64) : Parts :=
  let negative := bits >>> 63 == 1
  let biased := ((bits >>> 52) &&& 0x7ff).toNat
  let fraction := (bits &&& 0xfffffffffffff).toNat
  if biased = 0x7ff then
    if fraction = 0 then .infinite negative else .undefined
  else if biased = 0 then
    .finite negative fraction (-1074)
  else
    .finite negative (1 <<< 52 + fraction) ((biased : Int) - 1075)

/-- The parts of a double. -/
def parts (x : Float) : Parts := .ofBits x.toBits

/-- Divides and rounds to the nearest whole number, a half to the even one. -/
def divideToEven (num den : Nat) : Nat :=
  let q := num / den
  let r := num % den
  if 2 * r < den then q
  else if den < 2 * r then q + 1
  else q + q % 2

/-- The fraction `num / den` in units of `2 ^ exponent`. -/
def inUnits (num den : Nat) (exponent : Int) : Nat × Nat :=
  if 0 ≤ exponent then (num, den <<< exponent.toNat)
  else (num <<< (-exponent).toNat, den)

/-- The double nearest to `num / den`. The unit is chosen so that 53 bits remain, but no finer than
the smallest positive double. -/
def nearest (num den : Nat) : Float :=
  if num = 0 then 0 else
  let guess : Int := max ((num.log2 : Int) - den.log2 - 53) (-1074)
  let fits (e : Int) : Bool := let (n, d) := inUnits num den e; n < d <<< 53
  let exponent := if fits guess then guess else if fits (guess + 1) then guess + 1 else guess + 2
  let (n, d) := inUnits num den exponent
  (Float.ofNat (divideToEven n d)).scaleB exponent

/-- The remainder of `x / d` with the sign of `x`, computed on whole multiples of a common unit. -/
def remainder (x d : Float) : Float :=
  match parts x, parts d with
  | .finite negative m e, .finite _ n f =>
    if n = 0 then 0 / 0 else
    let unit := min e f
    let r := (m <<< (e - unit).toNat) % (n <<< (f - unit).toNat)
    let size := (Float.ofNat r).scaleB unit
    if negative then -size else size
  | .finite .., .infinite _ => x
  | _, _ => 0 / 0

/-- A word that grows with the number: negative doubles are turned over, the others moved up. -/
def rank (x : Float) : UInt64 :=
  let bits := x.toBits
  if bits >>> 63 == 1 then ~~~bits else bits ||| 0x8000000000000000

instance : Scalar Float where
  zero := 0.0
  one := 1.0
  natCast n := if n < 1 <<< 64 then n.toUInt64.toFloat else nearest n 1
  decLT := fun a b => inferInstanceAs (Decidable (a < b))
  decLE := fun a b => inferInstanceAs (Decidable (a ≤ b))
  sqrt := Float.sqrt
  floorNat x := x.floor.toUInt64.toNat
  roundInt x := x.round.toInt64.toInt
  rem x d :=
    let r := remainder x d
    if r < 0 then r + d.abs else r
  totalCmp := compareOn rank
  totalTrans := inferInstance
  Key := UInt64
  key x := if x == 0 then 0 else x.toBits
  keyOrd := inferInstance
  keyTrans := inferInstance
  keyEq := inferInstance

end Isomesh.Binary64
