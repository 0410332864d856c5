import Isomesh.Scalar

/-!
# Vectors of space

Points and vectors with three coordinates, addressed by `Axis`, and 3 by 3 matrices with their
determinant and inverse. Sums are formed from left to right and each operation works coordinate by
coordinate, so on rounded scalars a result is fixed to the last bit.

Models what is used of `Point3`, `Vector3` and `Matrix3`: among it `inf` and `sup` (`lesser`, `greater`),
`imax` (`widestAxis`), `center` (`midpoint`), `determinant` and `try_inverse`.
-/

set_option autoImplicit false

namespace Isomesh

/-- The coordinate axes. -/
inductive Axis where
  | x
  | y
  | z
  deriving DecidableEq, Repr

namespace Axis

/-- The axes in order. -/
def all : List Axis := [.x, .y, .z]

/-- The place of an axis in the order. -/
def index : Axis → Nat
  | x => 0
  | y => 1
  | z => 2

theorem mem_all (a : Axis) : a ∈ all := by cases a <;> decide

end Axis

/-- A point or vector of space. -/
structure Vec3 (K : Type) where
  x : K
  y : K
  z : K
  deriving DecidableEq, Repr

namespace Vec3

variable {K : Type}

/-- The coordinate along an axis. -/
def get (v : Vec3 K) : Axis → K
  | .x => v.x
  | .y => v.y
  | .z => v.z

/-- The vector with one coordinate exchanged. -/
def set (v : Vec3 K) (axis : Axis) (c : K) : Vec3 K :=
  match axis with
  | .x => { v with x := c }
  | .y => { v with y := c }
  | .z => { v with z := c }

@[simp] theorem get_set_self (v : Vec3 K) (axis : Axis) (c : K) : (v.set axis c).get axis = c := by
  cases axis <;> rfl

theorem get_set_of_ne (v : Vec3 K) {a b : Axis} (c : K) (h : b ≠ a) :
    (v.set a c).get b = v.get b := by
  cases a <;> cases b <;> simp_all [get, set]

/-- The vector of the values of a function on the axes. -/
def ofFn (f : Axis → K) : Vec3 K := ⟨f .x, f .y, f .z⟩

@[simp] theorem get_ofFn (f : Axis → K) (axis : Axis) : (ofFn f).get axis = f axis := by
  cases axis <;> rfl

/-- Vectors that agree along every axis are equal. -/
theorem ext_get {a b : Vec3 K} (h : ∀ axis, a.get axis = b.get axis) : a = b := by
  have hx := h .x
  have hy := h .y
  have hz := h .z
  cases a
  cases b
  simp_all [get]

/-- Applies a function to each coordinate. -/
def map (f : K → K) (v : Vec3 K) : Vec3 K := ⟨f v.x, f v.y, f v.z⟩

/-- The vector with all coordinates equal. -/
def uniform (c : K) : Vec3 K := ⟨c, c, c⟩

theorem get_uniform (c : K) (axis : Axis) : (uniform c).get axis = c := by cases axis <;> rfl

variable [Scalar K]

/-- The origin. -/
def zero : Vec3 K := ⟨0, 0, 0⟩

instance : Add (Vec3 K) := ⟨fun a b => ⟨a.x + b.x, a.y + b.y, a.z + b.z⟩⟩

instance : Sub (Vec3 K) := ⟨fun a b => ⟨a.x - b.x, a.y - b.y, a.z - b.z⟩⟩

instance : Neg (Vec3 K) := ⟨fun a => ⟨-a.x, -a.y, -a.z⟩⟩

theorem add_def (a b : Vec3 K) : a + b = ⟨a.x + b.x, a.y + b.y, a.z + b.z⟩ := rfl

theorem sub_def (a b : Vec3 K) : a - b = ⟨a.x - b.x, a.y - b.y, a.z - b.z⟩ := rfl

theorem neg_def (a : Vec3 K) : -a = ⟨-a.x, -a.y, -a.z⟩ := rfl

theorem get_add (a b : Vec3 K) (axis : Axis) : (a + b).get axis = a.get axis + b.get axis := by
  cases axis <;> rfl

theorem get_sub (a b : Vec3 K) (axis : Axis) : (a - b).get axis = a.get axis - b.get axis := by
  cases axis <;> rfl

/-- The vector times a scalar. -/
def scale (v : Vec3 K) (s : K) : Vec3 K := ⟨v.x * s, v.y * s, v.z * s⟩

theorem get_scale (v : Vec3 K) (s : K) (axis : Axis) : (v.scale s).get axis = v.get axis * s := by
  cases axis <;> rfl

/-- The vector divided by a scalar. -/
def divide (v : Vec3 K) (s : K) : Vec3 K := ⟨v.x / s, v.y / s, v.z / s⟩

theorem get_divide (v : Vec3 K) (s : K) (axis : Axis) : (v.divide s).get axis = v.get axis / s := by
  cases axis <;> rfl

/-- The inner product. -/
def dot (a b : Vec3 K) : K := a.x * b.x + a.y * b.y + a.z * b.z

/-- The squared length. -/
def normSq (v : Vec3 K) : K := v.dot v

/-- The length. -/
def norm (v : Vec3 K) : K := Scalar.sqrt v.normSq

/-- The cross product: orthogonal to both, by the right-hand rule. -/
def cross (a b : Vec3 K) : Vec3 K :=
  ⟨a.y * b.z - a.z * b.y, a.z * b.x - a.x * b.z, a.x * b.y - a.y * b.x⟩

/-- The vector at length one; the zero vector for a vector without length. -/
def unit (v : Vec3 K) : Vec3 K :=
  let n := v.norm
  if n ≤ 0 then zero else v.divide n

/-- The point halfway between two points. -/
def midpoint (a b : Vec3 K) : Vec3 K := (a + b).scale 0.5

/-- The squared distance between two points. -/
def distSq (a b : Vec3 K) : K := (a - b).normSq

/-- The distance between two points. -/
def dist (a b : Vec3 K) : K := (a - b).norm

/-- The smaller coordinate along each axis. -/
def lesser (a b : Vec3 K) : Vec3 K :=
  ⟨Scalar.lesser a.x b.x, Scalar.lesser a.y b.y, Scalar.lesser a.z b.z⟩

/-- The larger coordinate along each axis. -/
def greater (a b : Vec3 K) : Vec3 K :=
  ⟨Scalar.greater a.x b.x, Scalar.greater a.y b.y, Scalar.greater a.z b.z⟩

/-- The sum of a list, from left to right. -/
def sum (vs : List (Vec3 K)) : Vec3 K := vs.foldl (· + ·) zero

/-- The axis of the largest coordinate, the first of several. -/
def widestAxis (v : Vec3 K) : Axis :=
  let first : Axis := if v.x < v.y then .y else .x
  if v.get first < v.z then .z else first

end Vec3

/-- A 3 by 3 matrix, given by its rows. -/
structure Mat3 (K : Type) where
  row1 : Vec3 K
  row2 : Vec3 K
  row3 : Vec3 K
  deriving DecidableEq, Repr

namespace Mat3

variable {K : Type} [Scalar K]

/-- The matrix with the given columns. -/
def ofColumns (a b c : Vec3 K) : Mat3 K :=
  ⟨⟨a.x, b.x, c.x⟩, ⟨a.y, b.y, c.y⟩, ⟨a.z, b.z, c.z⟩⟩

/-- The minor of the lower two rows without the first column. -/
def minor1 (m : Mat3 K) : K := m.row2.y * m.row3.z - m.row3.y * m.row2.z

/-- The minor of the lower two rows without the second column. -/
def minor2 (m : Mat3 K) : K := m.row2.x * m.row3.z - m.row3.x * m.row2.z

/-- The minor of the lower two rows without the third column. -/
def minor3 (m : Mat3 K) : K := m.row2.x * m.row3.y - m.row3.x * m.row2.y

/-- The determinant, expanded along the first row. -/
def det (m : Mat3 K) : K :=
  m.row1.x * m.minor1 - m.row1.y * m.minor2 + m.row1.z * m.minor3

/-- The inverse by cofactors, if the determinant is not zero. -/
def inverse? (m : Mat3 K) : Option (Mat3 K) :=
  let d := m.det
  if Scalar.isZero d then none
  else
    let ⟨a, b, c⟩ := m.row1
    let ⟨e, f, g⟩ := m.row2
    let ⟨p, q, r⟩ := m.row3
    some {
      row1 := ⟨m.minor1 / d, (c * q - r * b) / d, (b * g - f * c) / d⟩
      row2 := ⟨-m.minor2 / d, (a * r - p * c) / d, (c * e - g * a) / d⟩
      row3 := ⟨m.minor3 / d, (b * p - q * a) / d, (a * f - e * b) / d⟩ }

/-- The matrix times a column. -/
def apply (m : Mat3 K) (v : Vec3 K) : Vec3 K := ⟨m.row1.dot v, m.row2.dot v, m.row3.dot v⟩

end Mat3

end Isomesh
