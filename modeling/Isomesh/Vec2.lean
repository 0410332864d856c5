import Isomesh.Scalar

/-!
# Plane vectors

Points and vectors of the plane, and 2 by 2 matrices with their determinant and inverse.

Models what the crossings and overlaps of the plane use of `Vector2` and `Matrix2`.
-/

set_option autoImplicit false

namespace Isomesh

/-- A point or vector of the plane. -/
structure Vec2 (K : Type) where
  x : K
  y : K
  deriving DecidableEq, Repr

variable {K : Type} [Scalar K]

namespace Vec2

instance : Add (Vec2 K) := ⟨fun a b => ⟨a.x + b.x, a.y + b.y⟩⟩

instance : Sub (Vec2 K) := ⟨fun a b => ⟨a.x - b.x, a.y - b.y⟩⟩

instance : Neg (Vec2 K) := ⟨fun a => ⟨-a.x, -a.y⟩⟩

theorem add_def (a b : Vec2 K) : a + b = ⟨a.x + b.x, a.y + b.y⟩ := rfl

theorem sub_def (a b : Vec2 K) : a - b = ⟨a.x - b.x, a.y - b.y⟩ := rfl

theorem neg_def (a : Vec2 K) : -a = ⟨-a.x, -a.y⟩ := rfl

/-- The vector times a scalar. -/
def scale (v : Vec2 K) (s : K) : Vec2 K := ⟨v.x * s, v.y * s⟩

/-- The inner product. -/
def dot (a b : Vec2 K) : K := a.x * b.x + a.y * b.y

/-- The squared length. -/
def normSq (v : Vec2 K) : K := v.dot v

/-- The length. -/
def norm (v : Vec2 K) : K := Scalar.sqrt v.normSq

end Vec2

/-- A 2 by 2 matrix; `row1` and `row2` are its rows. -/
structure Mat2 (K : Type) where
  row1 : Vec2 K
  row2 : Vec2 K
  deriving DecidableEq, Repr

namespace Mat2

/-- The matrix with the given columns. -/
def ofColumns (a b : Vec2 K) : Mat2 K := ⟨⟨a.x, b.x⟩, ⟨a.y, b.y⟩⟩

/-- The determinant. -/
def det (m : Mat2 K) : K := m.row1.x * m.row2.y - m.row2.x * m.row1.y

/-- The inverse, if the determinant is not zero. -/
def inverse? (m : Mat2 K) : Option (Mat2 K) :=
  let d := m.det
  if Scalar.isZero d then none
  else some ⟨⟨m.row2.y / d, -m.row1.y / d⟩, ⟨-m.row2.x / d, m.row1.x / d⟩⟩

/-- The matrix times a column. -/
def apply (m : Mat2 K) (v : Vec2 K) : Vec2 K := ⟨m.row1.dot v, m.row2.dot v⟩

end Mat2

end Isomesh
