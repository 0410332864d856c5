import Mathlib
import Isomesh.Proofs.SmoothedBounds

/-!
# Smoothing as a matrix

A pass adds to each vertex its pull towards the mean of its neighbours, times the rate. The pull is linear,
and the same in all passes, since the neighbours are read off the mesh once. So in exact arithmetic a run
multiplies the vertices by one factor for each rate. Everything that a run does can then be read off a
matrix that is known from the neighbours and the rates alone.

* `Mesh.pull`: the pull of the neighbours.
* `Mesh.weights`, `Mesh.blended`: what a run makes of the vertices.
* `Mesh.smoothedCoords_eq`: a run in closed form.
* `Mesh.get_blended_append`: the places after one more pass.
-/

set_option autoImplicit false

namespace Isomesh

open Matrix

/-! ## Neighbours -/

namespace Mesh

theorem nodup_ring (faces : List (List Nat)) (n : Nat) : (ring faces n).Nodup := nodup_distinctOn_id _

section Numbers

variable {K : Type} [Scalar K] {m : Mesh K}

/-- The corners of a face are numbers of vertices. -/
theorem lt_of_mem_faces {face : List Nat} (hface : face ∈ m.faces) {k : Nat} (hk : k ∈ face) :
    k < m.vertices.length := by
  obtain ⟨t, ht, rfl⟩ := List.mem_map.1 hface
  obtain ⟨key, hkey, rfl⟩ := List.mem_map.1 hk
  obtain ⟨n, v, hn, rfl⟩ := exists_number ⟨t, ht, hkey⟩
  rw [Std.TreeMap.getD_eq_getD_getElem?, getElem?_vertexNumbers hn]
  exact (List.getElem?_eq_some_iff.1 hn).1

theorem lt_of_mem_ring {n k : Nat} (h : k ∈ ring m.faces n) : k < m.vertices.length := by
  obtain ⟨face, hface, hk⟩ := List.mem_flatMap.1 (mem_distinctOn_id.1 h)
  exact lt_of_mem_faces (List.mem_filter.1 hface).1 (List.mem_filter.1 hk).1

end Numbers

end Mesh

variable {K : Type} [Field K] [LinearOrder K] [IsStrictOrderedRing K] [FloorRing K] [SquareRoot K]

namespace Mesh

variable {m : Mesh K}

/-! ## One pass -/

/-- The pull of the neighbours: how far a vertex is from their mean. A vertex without neighbours is not
pulled. -/
def pull (m : Mesh K) : Matrix (Fin m.vertices.length) (Fin m.vertices.length) K := fun n k =>
  if ring m.faces n = [] then 0
  else (if k.val ∈ ring m.faces n then ((ring m.faces n).length : K)⁻¹ else 0) - if n = k then 1 else 0

/-- The places after one pass. -/
def pulled (m : Mesh K) (rate : K) (c : Fin m.vertices.length → Vec3 K) (n : Fin m.vertices.length) :
    Vec3 K :=
  .ofFn fun axis => ((1 + rate • m.pull) *ᵥ fun k => (c k).get axis) n

/-- The neighbours of a vertex, as numbers of vertices, and their places. -/
theorem exists_around (c : Fin m.vertices.length → Vec3 K) (n : Nat) :
    ∃ around : List (Fin m.vertices.length), around.Nodup ∧ ring m.faces n = around.map Fin.val ∧
      (ring m.faces n).filterMap ((Array.ofFn c)[·]?) = around.map c := by
  have hval : ((ring m.faces n).pmap Fin.mk fun _ => lt_of_mem_ring).map Fin.val = ring m.faces n := by
    rw [List.map_pmap, List.pmap_eq_map, List.map_id']
  refine ⟨_, .of_map Fin.val (by rw [hval]; exact nodup_ring _ _), hval.symm, ?_⟩
  conv_lhs => rw [← hval]
  rw [List.filterMap_map, ← List.filterMap_eq_map]
  refine List.filterMap_congr fun k _ => ?_
  simp

theorem pull_mulVec_of_nil {n : Fin m.vertices.length} (h : ring m.faces n = [])
    (x : Fin m.vertices.length → K) : (m.pull *ᵥ x) n = 0 := by
  simp [mulVec, dotProduct, pull, h]

/-- The pull of the neighbours is towards their mean. -/
theorem pull_mulVec {n : Fin m.vertices.length} {around : List (Fin m.vertices.length)}
    (hnodup : around.Nodup) (hring : ring m.faces n = around.map Fin.val) (hne : around ≠ [])
    (x : Fin m.vertices.length → K) :
    (m.pull *ᵥ x) n = (around.map x).sum / (around.length : K) - x n := by
  have hrow (k : Fin m.vertices.length) : m.pull n k * x k =
      (if k ∈ around.toFinset then x k / (around.length : K) else 0) - if n = k then x k else 0 := by
    have hmem : k.val ∈ around.map Fin.val ↔ k ∈ around.toFinset := by
      rw [List.mem_map_of_injective Fin.val_injective, List.mem_toFinset]
    rw [pull, if_neg (by simpa [hring] using hne), hring, List.length_map, sub_mul, ite_mul, ite_mul,
      zero_mul, one_mul, inv_mul_eq_div]
    simp only [hmem]
  calc (m.pull *ᵥ x) n = ∑ k, m.pull n k * x k := rfl
    _ = ∑ k ∈ around.toFinset, x k / (around.length : K) - x n := by
      simp only [hrow, Finset.sum_sub_distrib, Finset.sum_ite_mem, Finset.univ_inter, Finset.sum_ite_eq,
        Finset.mem_univ, if_true]
    _ = (around.map x).sum / (around.length : K) - x n := by
      rw [← Finset.sum_div, List.sum_toFinset x hnodup]

/-- **What a pass does to a vertex** is that it adds the pull of the neighbours, times the rate. -/
theorem relaxed_eq_pulled (c : Fin m.vertices.length → Vec3 K) (rate : K)
    (n : Fin m.vertices.length) :
    relaxed rate (c n) ((ring m.faces n).filterMap ((Array.ofFn c)[·]?)) = m.pulled rate c n := by
  obtain ⟨around, hnodup, hring, hplaces⟩ := exists_around c n
  refine Vec3.ext_get fun axis => ?_
  rw [hplaces, pulled, Vec3.get_ofFn, add_mulVec, one_mulVec, smul_mulVec, Pi.add_apply, Pi.smul_apply,
    smul_eq_mul]
  by_cases hnil : around = []
  · rw [pull_mulVec_of_nil (by rw [hring, hnil, List.map_nil]), mul_zero, add_zero, hnil]
    rfl
  · rw [pull_mulVec hnodup hring hnil, relaxed, if_neg (by simpa using hnil), Vec3.get_add,
      Vec3.get_scale, Vec3.get_scale, meanOf, Vec3.get_divide, Vec3.get_sum, List.map_map,
      List.length_map]
    change _ * _ + (around.map fun k => (c k).get axis).sum / _ * _ = _
    ring

theorem relax_ofFn (c : Fin m.vertices.length → Vec3 K) (rate : K) :
    relax m.rings (Array.ofFn c) rate = Array.ofFn (m.pulled rate c) := by
  have hrings : m.rings.length = m.vertices.length := by simp [rings]
  refine Array.ext (by simp [relax, hrings]) fun n hn hn' => ?_
  rw [Array.size_ofFn] at hn'
  have hplace : (relax m.rings (Array.ofFn c) rate)[n]? = some (m.pulled rate c ⟨n, hn'⟩) :=
    getElem?_relax_eq_some_iff.2 ⟨c ⟨n, hn'⟩, ring m.faces n, by simp [hn'], by simp [rings, hn'],
      relaxed_eq_pulled c rate ⟨n, hn'⟩⟩
  rw [Array.getElem_ofFn]
  exact Array.getElem_eq_iff.2 hplace

/-! ## A run -/

/-- The shares that the vertices have in each place after a run. -/
def weights (m : Mesh K) (rates : List K) : Matrix (Fin m.vertices.length) (Fin m.vertices.length) K :=
  (rates.map fun rate => 1 + rate • m.pull).prod

/-- The places that a run blends from the vertices. -/
def blended (m : Mesh K) (rates : List K) (n : Fin m.vertices.length) : Vec3 K :=
  .ofFn fun axis => (m.weights rates *ᵥ fun k => m.vertices[k].get axis) n

theorem weights_cons (m : Mesh K) (rate : K) (rates : List K) :
    m.weights (rate :: rates) = (1 + rate • m.pull) * m.weights rates := by
  rw [weights, List.map_cons, List.prod_cons]
  rfl

theorem commute_weights (m : Mesh K) (rates : List K) : Commute m.pull (m.weights rates) := by
  refine Commute.list_prod_right _ _ fun factor hfactor => ?_
  obtain ⟨rate, -, rfl⟩ := List.mem_map.1 hfactor
  exact (Commute.one_right _).add_right ((Commute.refl _).smul_right rate)

/-- All factors of a run are made from one matrix, so they can be multiplied in any order. -/
theorem mul_weights (m : Mesh K) (rate : K) (rates : List K) :
    (1 + rate • m.pull) * m.weights rates = m.weights rates * (1 + rate • m.pull) :=
  ((Commute.one_left _).add_left ((m.commute_weights rates).smul_left rate)).eq

theorem weights_append (m : Mesh K) (rates : List K) (rate : K) :
    m.weights (rates ++ [rate]) = (1 + rate • m.pull) * m.weights rates := by
  rw [mul_weights, weights, List.map_append, List.prod_append, List.map_singleton, List.prod_singleton]
  rfl

theorem foldl_relax_ofFn (rates : List K) (c : Fin m.vertices.length → Vec3 K) :
    rates.foldl (relax m.rings) (Array.ofFn c) =
      Array.ofFn fun n => .ofFn fun axis => (m.weights rates *ᵥ fun k => (c k).get axis) n := by
  -- for any places, since the rest of the run begins where the first pass has ended
  induction rates generalizing c with
  | nil =>
    refine congrArg Array.ofFn (funext fun n => Vec3.ext_get fun axis => ?_)
    rw [Vec3.get_ofFn, weights, List.map_nil, List.prod_nil, one_mulVec]
  | cons rate rates ih =>
    rw [List.foldl_cons, relax_ofFn, ih, weights_cons, mul_weights]
    simp only [pulled, Vec3.get_ofFn, mulVec_mulVec]

/-- **A run in closed form:** the vertices, multiplied by one factor for each rate. -/
theorem smoothedCoords_eq (m : Mesh K) (rates : List K) :
    m.smoothedCoords rates = Array.ofFn (m.blended rates) := by
  have hvertices : m.vertices.toArray = Array.ofFn fun k : Fin m.vertices.length => m.vertices[k] :=
    Array.ext (by simp) fun n hn hn' => by simp
  rw [smoothedCoords, hvertices, foldl_relax_ofFn]
  rfl

/-- One more pass adds the pull that the places have then, times its rate. -/
theorem get_blended_append (m : Mesh K) (rates : List K) (rate : K) (n : Fin m.vertices.length)
    (axis : Axis) : (m.blended (rates ++ [rate]) n).get axis = (m.blended rates n).get axis +
      rate * (m.pull *ᵥ fun k => (m.blended rates k).get axis) n := by
  have hplaces : (fun k => (m.blended rates k).get axis) =
      m.weights rates *ᵥ fun k => m.vertices[k].get axis := funext fun k => Vec3.get_ofFn _ axis
  rw [hplaces, blended, blended, Vec3.get_ofFn, Vec3.get_ofFn, weights_append, ← mulVec_mulVec, add_mulVec,
    one_mulVec, smul_mulVec]
  rfl

end Mesh

end Isomesh
