import Isomesh.Nearest

/-!
# Numbers that notice a division by zero

A checked number is a number or undefined. A division by zero is undefined, and so is everything that is
computed from something undefined; an undefined number compares with nothing. So where a computation
over checked numbers ends with numbers, it has not divided by zero on the way to them.

* `Checked`: checked numbers as scalars.
* `Vec3.checked`, `Triangle.checked`: points and triangles with checked coordinates.
-/

set_option autoImplicit false

namespace Isomesh

/-- A number, or the undefined result of a division by zero. -/
inductive Checked (K : Type) where
  | value (x : K)
  | undefined
  deriving DecidableEq, Repr

namespace Checked

variable {K : Type}

/-- The number, if it is defined. -/
def toOption : Checked K → Option K
  | value x => some x
  | undefined => none

/-- Applies an operation; it is undefined on everything undefined. -/
def map (f : K → K) : Checked K → Checked K
  | value x => value (f x)
  | undefined => undefined

/-- Applies an operation of two numbers; it is undefined on everything undefined. -/
def map₂ (f : K → K → K) : Checked K → Checked K → Checked K
  | value x, value y => value (f x y)
  | _, _ => undefined

/-- Whether two numbers are defined and in a relation. -/
def Related (r : K → K → Prop) : Checked K → Checked K → Prop
  | value x, value y => r x y
  | _, _ => False

instance (r : K → K → Prop) [DecidableRel r] : DecidableRel (Related r)
  | value x, value y => inferInstanceAs (Decidable (r x y))
  | value _, undefined => inferInstanceAs (Decidable False)
  | undefined, value _ => inferInstanceAs (Decidable False)
  | undefined, undefined => inferInstanceAs (Decidable False)

variable [Scalar K]

/-- An operation whose second number must not be zero. -/
def divideBy (f : K → K → K) : Checked K → Checked K → Checked K
  | value x, value y => if Scalar.isZero y then undefined else value (f x y)
  | _, _ => undefined

/-- The total order of the numbers, with what is undefined in front. -/
def totalCmp (a b : Checked K) : Ordering :=
  letI : Ord K := ⟨Scalar.totalCmp⟩
  compare a.toOption b.toOption

theorem totalCmp_trans : Std.TransCmp (totalCmp (K := K)) :=
  letI : Ord K := ⟨Scalar.totalCmp⟩
  haveI : Std.TransOrd K := Scalar.totalTrans
  inferInstanceAs (Std.TransCmp (compareOn (toOption (K := K))))

instance : Scalar (Checked K) where
  zero := value 0
  one := value 1
  add := map₂ (· + ·)
  sub := map₂ (· - ·)
  mul := map₂ (· * ·)
  div := divideBy (· / ·)
  neg := map (- ·)
  lt := Related (· < ·)
  le := Related (· ≤ ·)
  natCast n := value n
  ofScientific m s e := value (OfScientific.ofScientific m s e)
  decLT := inferInstanceAs (DecidableRel (Related (· < ·)))
  decLE := inferInstanceAs (DecidableRel (Related (· ≤ ·)))
  sqrt := map Scalar.sqrt
  floorNat x := (x.toOption.map Scalar.floorNat).getD 0
  roundInt x := (x.toOption.map Scalar.roundInt).getD 0
  rem := divideBy Scalar.rem
  totalCmp := totalCmp
  totalTrans := totalCmp_trans
  Key := Option (Scalar.Key K)
  key x := x.toOption.map Scalar.key
  keyOrd := inferInstance
  keyTrans := inferInstance
  keyEq := inferInstance

/-! Numbers that are defined are computed with as usual. -/

theorem zero_eq : (0 : Checked K) = value 0 := rfl

theorem value_add (x y : K) : value x + value y = value (x + y) := rfl

theorem value_sub (x y : K) : value x - value y = value (x - y) := rfl

theorem value_mul (x y : K) : value x * value y = value (x * y) := rfl

theorem value_le_iff {x y : K} : value x ≤ value y ↔ x ≤ y := Iff.rfl

/-- **A division is defined** when the divisor is not zero. -/
theorem value_div (x : K) {y : K} (h : ¬Scalar.isZero y = true) :
    value x / value y = value (x / y) := if_neg h

theorem isZero_value (x : K) : Scalar.isZero (value x) = Scalar.isZero x := rfl

end Checked

open Checked

variable {K : Type} [Scalar K]

/-! ## Points and triangles -/

namespace Vec3

/-- The point with checked coordinates. -/
def checked (v : Vec3 K) : Vec3 (Checked K) := ⟨value v.x, value v.y, value v.z⟩

variable (u v : Vec3 K) (s : K)

theorem checked_add : u.checked + v.checked = (u + v).checked := rfl

theorem checked_sub : u.checked - v.checked = (u - v).checked := rfl

theorem checked_scale : v.checked.scale (value s) = (v.scale s).checked := rfl

theorem checked_dot : u.checked.dot v.checked = value (u.dot v) := rfl

end Vec3

namespace Triangle

/-- The triangle with checked coordinates. -/
def checked (t : Triangle K) : Triangle (Checked K) := ⟨t.a.checked, t.b.checked, t.c.checked⟩

end Triangle

end Isomesh
