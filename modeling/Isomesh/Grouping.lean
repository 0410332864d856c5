import Isomesh.Triangle

/-!
# Grouping triangles by place

Orders a list of triangles so that neighbours in the list are near each other in space: at the median
along the axis on which the centroids spread most, and so on in both halves.

Models `group_triangles`. The selection of the median there may leave its two sides in any order; here the
list is sorted, and the theory speaks of every selection.
-/

set_option autoImplicit false

namespace Isomesh

variable {K : Type} [Scalar K]

/-- The smallest box around some points. -/
def boundsOf : List (Vec3 K) → Bounds K
  | [] => ⟨.zero, .zero⟩
  | p :: rest => rest.foldl (fun box q => ⟨box.lo.lesser q, box.hi.greater q⟩) ⟨p, p⟩

/-- The axis along which the centroids spread most. -/
def spreadAxis (ts : List (Triangle K)) : Axis :=
  let box := boundsOf (ts.map Triangle.centroid)
  (box.hi - box.lo).widestAxis

/-- Whether the centroid of one triangle comes no later than that of another along an axis. -/
def centroidLE (axis : Axis) (s t : Triangle K) : Bool :=
  (Scalar.totalCmp (s.centroid.get axis) (t.centroid.get axis)).isLE

/-- Sorts along the axis of the largest spread, and then each half by itself. -/
def groupTriangles (ts : List (Triangle K)) : List (Triangle K) :=
  if ts.length ≤ 2 then ts
  else
    let sorted := ts.mergeSort (centroidLE (spreadAxis ts))
    let half := ts.length / 2
    groupTriangles (sorted.take half) ++ groupTriangles (sorted.drop half)
termination_by ts.length
decreasing_by
  all_goals
    simp only [List.length_take, List.length_drop, List.length_mergeSort]
    omega

/-- Grouping keeps every triangle. -/
theorem groupTriangles_perm (ts : List (Triangle K)) : (groupTriangles ts).Perm ts := by
  fun_induction groupTriangles ts with
  | case1 => exact .refl _
  | case2 ts _ sorted half left right =>
    refine (left.append right).trans ?_
    rw [List.take_append_drop]
    exact List.mergeSort_perm ts _

end Isomesh
