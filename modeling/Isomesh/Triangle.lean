import Isomesh.Bounds
import Isomesh.Segment

/-!
# Triangles

An oriented triangle: its corners run counter-clockwise when seen from outside, so the outward
normal follows from their order by the right-hand rule.

Models `Triangle`: `vertices` (`corners`), `keys`, `area_normal`, `normal`, `area`, `centroid`, `min` and
`max` (`bounds`), `segments`, `position_of` (`placeOf`), `map`, and the places of its corners.
-/

set_option autoImplicit false

namespace Isomesh

/-- An oriented triangle. -/
structure Triangle (K : Type) where
  a : Vec3 K
  b : Vec3 K
  c : Vec3 K
  deriving DecidableEq, Repr

/-- The corners of a triangle, by place. -/
inductive Place where
  | first
  | second
  | third
  deriving DecidableEq, Repr

/-- The number of a place, from `0`. -/
def Place.index : Place → Nat
  | first => 0
  | second => 1
  | third => 2

namespace Triangle

variable {K : Type}

/-- The three corners in order. -/
def corners (t : Triangle K) : List (Vec3 K) := [t.a, t.b, t.c]

/-- The two corners that follow a place, going around. -/
def following (t : Triangle K) : Place → Vec3 K × Vec3 K
  | .first => (t.b, t.c)
  | .second => (t.c, t.a)
  | .third => (t.a, t.b)

/-- Exchanges the corner at a place. -/
def replace (t : Triangle K) (place : Place) (p : Vec3 K) : Triangle K :=
  match place with
  | .first => { t with a := p }
  | .second => { t with b := p }
  | .third => { t with c := p }

/-- Applies a function to every corner. -/
def map (f : Vec3 K → Vec3 K) (t : Triangle K) : Triangle K := ⟨f t.a, f t.b, f t.c⟩

/-- Runs an action on every corner, in order. -/
def mapM {m : Type → Type} [Monad m] (f : Vec3 K → m (Vec3 K)) (t : Triangle K) :
    m (Triangle K) := do
  let a ← f t.a
  let b ← f t.b
  let c ← f t.c
  return ⟨a, b, c⟩

/-- The sides as pairs of corners, in the direction of the triangle. -/
def sides (t : Triangle K) : List (Vec3 K × Vec3 K) := [(t.a, t.b), (t.b, t.c), (t.c, t.a)]

variable [Scalar K]

/-- The keys of the corners, in order. -/
def keys (t : Triangle K) : List (VertexKey K) := t.corners.map Vec3.key

/-- The sides as undirected edges. -/
def segments (t : Triangle K) : List (Segment K) := t.sides.map fun s => .between s.1 s.2

/-- The first place whose corner has the given key. -/
def placeOf (t : Triangle K) (k : VertexKey K) : Option Place :=
  if t.a.key = k then some .first
  else if t.b.key = k then some .second
  else if t.c.key = k then some .third
  else none

/-- Whether some corner has the given key. -/
def hasCorner (t : Triangle K) (k : VertexKey K) : Bool := (t.placeOf k).isSome

/-- The cross product of the two sides that leave the first corner: it points outward and is twice
as long as the area. -/
def areaNormal (t : Triangle K) : Vec3 K := (t.b - t.a).cross (t.c - t.a)

/-- The outward unit normal; zero for a triangle without area. -/
def normal (t : Triangle K) : Vec3 K := t.areaNormal.unit

/-- The area. -/
def area (t : Triangle K) : K := t.areaNormal.norm / 2.0

/-- The mean of the corners. -/
def centroid (t : Triangle K) : Vec3 K := (t.a + t.b + t.c).divide 3.0

/-- The smallest box around the triangle. -/
def bounds (t : Triangle K) : Bounds K :=
  ⟨(t.a.lesser t.b).lesser t.c, (t.a.greater t.b).greater t.c⟩

theorem mem_keys_iff_hasCorner (t : Triangle K) (k : VertexKey K) :
    k ∈ t.keys ↔ t.hasCorner k = true := by
  simp only [keys, corners, List.map_cons, List.map_nil, List.mem_cons, List.not_mem_nil, or_false,
    hasCorner, placeOf]
  grind

end Triangle

end Isomesh
