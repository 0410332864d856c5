import Isomesh.Collider
import Isomesh.Grouping
import Isomesh.Mesh

/-!
# Trees of boxes

A binary tree over a list of triangles in which every branch knows a box around all its triangles.
Questions skip branches whose box cannot hold an answer.

* `Tree.ofNonempty`: halves the list until single triangles are left, keeping its order.
* `Tree.nearest`: the point of the surface nearest to a place, by branch and bound.
* `Tree.crossings`, `Tree.firstHit`, `Tree.touchesBall`: the tree as a `Collider`.

Models `Bvh` and its nodes: `build`, `from_grouped` (`ofList`), `from_mesh`, `len`, `depth`,
`bounds_dist_squared`, `nearest` (`search`), `closest_point`, `distance`, and the answers as a `Collider`.
-/

set_option autoImplicit false

namespace Isomesh

/-- A tree of boxes. -/
inductive Tree (K : Type) where
  | leaf (t : Triangle K)
  | branch (box : Bounds K) (left right : Tree K)
  deriving Repr

namespace Tree

variable {K : Type}

/-- The triangles from left to right. -/
def triangles : Tree K → List (Triangle K)
  | leaf t => [t]
  | branch _ left right => left.triangles ++ right.triangles

/-- The number of triangles. -/
def size : Tree K → Nat
  | leaf _ => 1
  | branch _ left right => left.size + right.size

theorem size_eq_length_triangles (tree : Tree K) : tree.size = tree.triangles.length := by
  induction tree with
  | leaf t => rfl
  | branch box left right hl hr => rw [size, triangles, List.length_append, hl, hr]

/-- The number of nodes on the longest way down. -/
def depth : Tree K → Nat
  | leaf _ => 1
  | branch _ left right => 1 + max left.depth right.depth

variable [Scalar K]

/-- The box around all triangles. -/
def bounds : Tree K → Bounds K
  | leaf t => t.bounds
  | branch box _ _ => box

/-- The tree of two trees. -/
def join (left right : Tree K) : Tree K := branch (left.bounds.join right.bounds) left right

/-- The tree of a list that has triangles. -/
def ofNonempty (ts : List (Triangle K)) (h : 0 < ts.length) : Tree K :=
  if single : ts.length = 1 then leaf ts[0]
  else
    join
      (ofNonempty (ts.take (ts.length / 2)) (by rw [List.length_take]; omega))
      (ofNonempty (ts.drop (ts.length / 2)) (by rw [List.length_drop]; omega))
termination_by ts.length
decreasing_by
  all_goals
    simp only [List.length_take, List.length_drop]
    omega

@[simp] theorem triangles_join (left right : Tree K) :
    (join left right).triangles = left.triangles ++ right.triangles := rfl

/-- The triangles of a tree are those of its list, in the same order. -/
theorem triangles_ofNonempty (ts : List (Triangle K)) (h : 0 < ts.length) :
    (ofNonempty ts h).triangles = ts := by
  fun_induction ofNonempty ts h with
  | case1 ts h single =>
    obtain ⟨t, rfl⟩ := List.length_eq_one_iff.1 single
    rfl
  | case2 ts h single left right =>
    rw [triangles_join, left, right, List.take_append_drop]

/-- The tree of a list of triangles in its order. -/
def ofList (ts : List (Triangle K)) : Except (Error K) (Tree K) :=
  if h : 0 < ts.length then .ok (ofNonempty ts h) else .error (.input .noTriangles)

/-- The tree of the triangles of a mesh, grouped by place. -/
def ofMesh (m : Mesh K) : Except (Error K) (Tree K) := ofList (groupTriangles m.triangles)

/-! ## Nearest points -/

/-- The best point so far with its squared distance; none while every distance would do. -/
abbrev Best (K : Type) := Option (Vec3 K × K)

/-- Whether a squared distance improves on the best one. Without a best one it has to be a number. -/
def improves (d : K) : Best K → Bool
  | none => Scalar.isFinite d
  | some (_, best) => d < best

/-- Tries a triangle. -/
def offer (p : Vec3 K) (t : Triangle K) (best : Best K) : Best K :=
  let c := t.closest p
  let d := c.distSq p
  if improves d best then some (c, d) else best

/-- Searches a tree, in each branch the half with the nearer box first. -/
def search (p : Vec3 K) : Tree K → Best K → Best K
  | leaf t, best => offer p t best
  | branch _ left right, best =>
    let dl := left.bounds.distSq p
    let dr := right.bounds.distSq p
    if dl ≤ dr then
      let best := if improves dl best then left.search p best else best
      if improves dr best then right.search p best else best
    else
      let best := if improves dr best then right.search p best else best
      if improves dl best then left.search p best else best

/-- The nearest point of the surface with its squared distance. -/
def nearest (tree : Tree K) (p : Vec3 K) : Best K := tree.search p none

/-- The nearest point of the surface; the point itself if no distance is a number. -/
def closest (tree : Tree K) (p : Vec3 K) : Vec3 K :=
  match tree.nearest p with
  | some (c, _) => c
  | none => p

/-- The distance to the surface; without bound if no distance is a number. -/
def dist (tree : Tree K) (p : Vec3 K) : K :=
  match tree.nearest p with
  | some (_, d) => Scalar.sqrt d
  | none => 1 / 0

/-! ## Probing -/

/-- How many times a ray crosses the triangles. -/
def crossings (ray : Ray K) : Tree K → Nat
  | leaf t => if t.bounds.meetsRay ray then t.crossings ray else 0
  | branch box left right =>
    if box.meetsRay ray then left.crossings ray + right.crossings ray else 0

/-- The earlier of two hits, the first of two equally early. -/
def earlier (a b : Option (Hit K)) : Option (Hit K) :=
  match a, b with
  | some x, some y => some (if y.scale < x.scale then y else x)
  | some x, none => some x
  | none, y => y

/-- Where a ray first meets a triangle. -/
def firstHit (ray : Ray K) : Tree K → Option (Hit K)
  | leaf t => if t.bounds.meetsRay ray then t.firstHit ray else none
  | branch box left right =>
    if box.meetsRay ray then earlier (left.firstHit ray) (right.firstHit ray) else none

/-- Whether a ball touches a triangle. -/
def touchesBall (center : Vec3 K) (r : K) : Tree K → Bool
  | leaf t => t.bounds.meetsBall center r && t.touchesBall center r
  | branch box left right =>
    box.meetsBall center r && (left.touchesBall center r || right.touchesBall center r)

/-- The tree as a surface. -/
def collider (tree : Tree K) : Collider K :=
  { bounds := tree.bounds
    crossings := fun ray => tree.crossings ray
    firstHit := fun ray => tree.firstHit ray
    touchesBall := fun center r => tree.touchesBall center r }

end Tree

end Isomesh
