import Isomesh.Binary64

/-!
# Shortest decimals

The decimal number with the fewest digits that reads back as a given double; of several the one
nearest to it, and of two equally near the larger. `shortest` tries grids of ever finer powers of
ten: on each grid only the two neighbours of the number can be the nearest, and the first grid with a
neighbour that reads back gives the answer. All comparisons are between whole numbers.

With `positional` this models how numbers are written in messages.
-/

set_option autoImplicit false

namespace Isomesh

/-- The number `digits * 10 ^ exponent`. -/
structure Decimal where
  digits : Nat
  exponent : Int
  deriving DecidableEq, Repr

namespace Decimal

/-- The numbers that read back as one double, as multiples of a quarter of its last place: the
double itself is at `4 * mantissa`. -/
structure ReadBack where
  value : Nat
  below : Nat
  above : Nat
  /-- Whether the two ends read back as the double. -/
  closed : Bool
  deriving DecidableEq, Repr

/-- The range of `mantissa * 2 ^ exponent`. It reaches halfway to the neighbours; below a power of
two the neighbour is twice as near. -/
def ReadBack.of (mantissa : Nat) (exponent : Int) : ReadBack :=
  { value := 4 * mantissa
    below := 4 * mantissa - (if mantissa = 1 <<< 52 ∧ -1074 < exponent then 1 else 2)
    above := 4 * mantissa + 2
    closed := mantissa % 2 = 0 }

/-- Whether a number, in the same units, reads back. -/
def ReadBack.holds (r : ReadBack) (scale n : Nat) : Bool :=
  if r.closed then r.below * scale ≤ n && n ≤ r.above * scale
  else r.below * scale < n && n < r.above * scale

/-- The neighbours of the number on the grid of `10 ^ k` that read back, the better one. All numbers
are brought to a common unit. -/
def onGrid (r : ReadBack) (exponent : Int) (k : Int) : Option Nat :=
  let quarter := exponent - 2
  -- In these units the number is `value * scale` and the grid has a point every `step`.
  let scale := Nat.pow 10 (-k).toNat <<< quarter.toNat
  let step := Nat.pow 10 k.toNat <<< (-quarter).toNat
  let down := r.value * scale / step
  let up := down + 1
  let fits (d : Nat) : Bool := r.holds scale (d * step)
  match fits down, fits up with
  | true, true => if 2 * (r.value * scale) < (down + up) * step then some down else some up
  | true, false => some down
  | false, true => some up
  | false, false => none

/-- Tries the grids of `10 ^ k`, `10 ^ (k - 1)` and so on. -/
def search (r : ReadBack) (exponent : Int) : Nat → Int → Decimal
  | 0, k => ⟨0, k⟩
  | tries + 1, k =>
    match onGrid r exponent k with
    | some d => ⟨d, k⟩
    | none => search r exponent tries (k - 1)

/-- The shortest decimal of `mantissa * 2 ^ exponent`. The first grid has a step above the number;
the seventeen digits that always suffice end before the last one. -/
def shortest (mantissa : Nat) (exponent : Int) : Decimal :=
  let whole := mantissa <<< exponent.toNat >>> (-exponent).toNat
  let places := (Nat.toDigits 10 whole).length
  search (.of mantissa exponent) exponent (places + 360) places

end Decimal

end Isomesh
