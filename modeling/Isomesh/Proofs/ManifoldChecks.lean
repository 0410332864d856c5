import Mathlib
import Isomesh.Proofs.EdgeCounts
import Isomesh.Proofs.Exact
import Isomesh.Proofs.MeshHistory

/-!
# The manifold checks over every history

A mesh has three ways to say whether every edge belongs to exactly two triangles: it counts the edges for
which this fails, it looks for one of them, and it refuses to go on if there are any. The count goes
through the distinct edges, the search through the sides of all triangles, and both ask the index, which
may be as old as the mesh or be built for the question.

What they have to say is put in terms of the ledger alone: its live triangles, and unordered pairs of keys.
Two copies of a triangle are two live triangles, and a side whose ends have the same key is a pair too.

* `Mesh.Ledger.edges`, `Mesh.Ledger.along`, `Mesh.Ledger.irregular`: the second side of the checks.
* `Mesh.Ledger.Sound.ncard_along`, `Mesh.Ledger.Sound.irregular_eq`: the mesh against the ledger.
* `Mesh.Coherent.needsRepair_iff`, `Mesh.ensureManifold_eq`: the checks against each other.
* `Mesh.manifold_checks_over_history`: the main result.
-/

set_option autoImplicit false

namespace Isomesh.Mesh

variable {K : Type} [Scalar K]

/-! ## The checks against each other -/

/-- **A mesh needs repair when it has an irregular edge.** -/
theorem Coherent.needsRepair_iff {m : Mesh K} (h : m.Coherent) :
    m.needsRepair = true ↔ 0 < m.irregularEdges := by
  rw [h.irregularEdges_eq_card, Finset.card_pos]
  unfold needsRepair
  simp only [List.any_eq_true, Bool.not_eq_true', h.indexed.isRegular_eq, decide_eq_false_iff_not]
  -- the search meets an edge at the sides of its triangles, the count has it once
  constructor
  · rintro ⟨t, ht, e, he, hcount⟩
    exact ⟨e.pair, Finset.mem_filter.2
      ⟨List.mem_toFinset.2 (List.mem_map_of_mem (List.mem_flatMap.2 ⟨t, ht, he⟩)), hcount⟩⟩
  · rintro ⟨pair, hpair⟩
    obtain ⟨hpair, hcount⟩ := Finset.mem_filter.1 hpair
    obtain ⟨e, he, rfl⟩ := List.mem_map.1 (List.mem_toFinset.1 hpair)
    obtain ⟨t, ht, he⟩ := List.mem_flatMap.1 he
    exact ⟨t, ht, e, he, hcount⟩

theorem ensureManifold_eq (m : Mesh K) : m.ensureManifold =
    if m.irregularEdges = 0 then .ok () else .error (.nonManifold m.irregularEdges) := by
  unfold ensureManifold
  split
  · rename_i hzero
    rw [if_pos hzero]
  · rename_i hne
    rw [if_neg hne]

/-! ## The checks against the ledger -/

/-- Identifiers tell apart the copies of a triangle, so each copy counts. -/
theorem ncard_setOf_get? (m : Mesh K) (P : Triangle K → Bool) :
    {id | ∃ t, m.get? id = some t ∧ P t = true}.ncard = m.triangles.countP P := by
  have hset : {id | ∃ t, m.get? id = some t ∧ P t = true} =
      (((m.toList.filter fun e => P e.2).map Prod.fst).toFinset : Set TriangleId) := by
    ext id
    rw [Finset.mem_coe, List.mem_toFinset, mem_map_fst_filter]
    rfl
  rw [hset, Set.ncard_coe_finset, List.toFinset_card_of_nodup (m.nodup_map_fst_filter P),
    length_map_fst_filter]

namespace Ledger

/-- The unordered pairs of keys that are a side of a live triangle. -/
def edges (r : Ledger K) : Set (Sym2 (VertexKey K)) :=
  {e | ∃ id t, r.Live id t ∧ ∃ side ∈ t.sides, s(side.1.key, side.2.key) = e}

/-- The live triangles that have both keys of a pair as corners. -/
def along (r : Ledger K) (e : Sym2 (VertexKey K)) : Set TriangleId :=
  {id | ∃ t, r.Live id t ∧ ∀ k ∈ e, k ∈ t.keys}

/-- The edges that do not belong to exactly two live triangles. -/
def irregular (r : Ledger K) : Set (Sym2 (VertexKey K)) := {e ∈ r.edges | (r.along e).ncard ≠ 2}

namespace Sound

variable {r : Ledger K}

theorem edges_eq (h : r.Sound) : r.edges = edgePairs r.mesh.triangles := by
  ext e
  simp only [edges, Set.mem_ofPred_eq, Finset.mem_coe, mem_edgePairs, mem_triangles_iff, ← h.get?_iff]
  constructor
  · rintro ⟨id, t, ht, side⟩
    exact ⟨t, ⟨id, ht⟩, side⟩
  · rintro ⟨t, ⟨id, ht⟩, side⟩
    exact ⟨id, t, ht, side⟩

theorem ncard_along (h : r.Sound) (e : Sym2 (VertexKey K)) :
    (r.along e).ncard = pairCount r.mesh.triangles e := by
  induction e using Sym2.ind with
  | _ k l =>
    rw [pairCount_mk, ← ncard_setOf_get?]
    simp only [along, Sym2.ball, Bool.and_eq_true, Triangle.mem_keys_iff_hasCorner, h.get?_iff]

theorem irregular_eq (h : r.Sound) : r.irregular = irregularPairs r.mesh.triangles := by
  ext e
  simp only [irregular, irregularPairs, Set.mem_ofPred_eq, Finset.mem_coe, Finset.mem_filter, h.edges_eq,
    h.ncard_along]

end Sound

end Ledger

/-- **The manifold checks agree with the definition over every history.** After any sequence of additions,
removals and questions, the count is the number of the unordered pairs of keys that are a side of a live
triangle and of which the number of live triangles with both keys is not two. A mesh needs repair exactly
when there is such a pair, and it is accepted as a manifold exactly when there is none; otherwise the
error says how many there are. -/
theorem manifold_checks_over_history (history : List (Command K)) :
    let r := Ledger.after history
    r.irregular.Finite ∧ r.mesh.irregularEdges = r.irregular.ncard ∧
      (r.mesh.needsRepair = true ↔ 0 < r.irregular.ncard) ∧
      r.mesh.ensureManifold =
        if r.irregular.ncard = 0 then .ok () else .error (.nonManifold r.irregular.ncard) := by
  intro r
  have hr : r.Sound := Ledger.sound_after history
  have hcount : r.mesh.irregularEdges = r.irregular.ncard := by
    rw [hr.irregular_eq, Set.ncard_coe_finset, hr.coherent.irregularEdges_eq_card]
  refine ⟨?_, hcount, ?_, ?_⟩
  · rw [hr.irregular_eq]
    exact Finset.finite_toSet _
  · rw [← hcount, hr.coherent.needsRepair_iff]
  · rw [← hcount, ensureManifold_eq]

/-- A needle has two edges: its shaft, and the pair of the key of its tip with itself. A copy of it makes
both regular. -/
example : let needle : Triangle ℚ := ⟨⟨0, 0, 0⟩, ⟨1, 0, 0⟩, ⟨1, 0, 0⟩⟩
    (Ledger.after [.add needle]).mesh.irregularEdges = 2 ∧
      (Ledger.after [.add needle, .inspect, .add needle]).mesh.irregularEdges = 0 := by
  decide +kernel

end Isomesh.Mesh
