import Mathlib
import Isomesh.Proofs.FlatCollapse

/-!
# Simplification keeps a surface balanced

A collapse takes both ends of its edge to the midpoint, wherever that is, and drops the triangles in which
the ends meet. On triangles with areas nothing else can go wrong: the test before a collapse sees to it
that no triangle loses its area, so the corners of each stay apart and the next collapse is of the same
kind. Every mesh of a run is balanced, even one in which a midpoint has landed on another vertex and the
surface is no longer a manifold.

* `Simplifying.forall_mem_states`: what every collapse keeps holds in all states of a run.
* `Simplifying.Watertight`: the invariant, kept by each collapse.
* `Mesh.simplify_stays_balanced`: the main result.
-/

set_option autoImplicit false

namespace Isomesh

namespace Simplifying

/-- What every collapse of an approved edge keeps holds in all states of a run. -/
theorem forall_mem_states {K : Type} [Scalar K] {approve : Approval K} (holds : Simplifying K → Prop)
    (hstep : ∀ (w : Simplifying K) (asked : Nat) (s : Segment K) (rest : List (Segment K)),
      holds w → s.key ∈ w.waiting → w.mesh.canCollapse s = true → approve w.mesh s = true →
      holds (w.collapse asked s rest))
    {w : Simplifying K} (hw : holds w) (steps : Nat) : ∀ v ∈ w.states approve steps, holds v := by
  induction steps generalizing w with
  | zero => exact List.forall_mem_singleton.2 hw
  | succ steps ih =>
    unfold states
    cases hnext : w.step approve with
    | finished done => exact List.forall_mem_singleton.2 hw
    | onward next =>
      obtain ⟨asked, s, rest, rfl, ⟨hs, hcan, happroved⟩, -⟩ := of_step_eq_onward hnext
      exact List.forall_mem_cons.2 ⟨hw, ih (hstep w asked s rest hw hs hcan happroved)⟩

variable {K : Type} [Field K] [LinearOrder K] [IsStrictOrderedRing K] [FloorRing K] [SquareRoot K]

/-- Among triangles with areas, an edge that waits and passes the test can be collapsed. -/
theorem Attached.collapsible {w : Simplifying K} (h : w.Attached)
    (harea : ∀ t ∈ w.mesh.triangles, t.hasArea = true) {s : Segment K} (hs : s.key ∈ w.waiting)
    (hcan : w.mesh.canCollapse s = true) : w.mesh.Collapsible s := by
  obtain ⟨t, ht, hedge, -⟩ := h.exists_atBoth hs
  exact ⟨h.coherent, harea, Triangle.lo_ne_hi_of_hasEdge (harea t ht) hedge, hcan⟩

/-- What holds throughout a simplification of a balanced surface of triangles with areas. -/
structure Watertight (w : Simplifying K) : Prop where
  attached : w.Attached
  hasArea : ∀ t ∈ w.mesh.triangles, t.hasArea = true
  balanced : Balanced w.mesh.triangles

theorem watertight_start {m : Mesh K} (harea : ∀ t ∈ m.triangles, t.hasArea = true)
    (hbalanced : Balanced m.triangles) : (start m).Watertight where
  attached := attached_start m
  hasArea := (triangles_start m).symm ▸ harea
  balanced := (triangles_start m).symm ▸ hbalanced

theorem Watertight.collapse {w : Simplifying K} (h : w.Watertight) (asked : Nat) {s : Segment K}
    (rest : List (Segment K)) (hs : s.key ∈ w.waiting) (hcan : w.mesh.canCollapse s = true) :
    (w.collapse asked s rest).Watertight := by
  have hcollapsible := h.attached.collapsible h.hasArea hs hcan
  have hstar : ∀ t ∈ w.mesh.triangles, t.atEnd s = true → t.keys.Nodup := fun t ht _ =>
    Triangle.nodup_keys_of_hasArea (h.hasArea t ht)
  exact {
    attached := h.attached.collapse hcollapsible.key_ne asked rest
    hasArea := hcollapsible.hasArea_collapse
    balanced := h.attached.coherent.balanced_collapse w.waiting hcollapsible.key_ne hstar h.balanced }

end Simplifying

variable {K : Type} [Field K] [LinearOrder K] [IsStrictOrderedRing K] [FloorRing K] [SquareRoot K]

/-- **Simplification keeps a surface balanced.** On triangles with areas it ends under every approval.
Each mesh of the run has every directed edge as often as its reverse, and so has the mesh that is
returned. -/
theorem Mesh.simplify_stays_balanced {m : Mesh K} (harea : ∀ t ∈ m.triangles, t.hasArea = true)
    (hbalanced : Balanced m.triangles) (approve : Approval K) :
    (∀ steps, ∀ w ∈ (Simplifying.start m).states approve steps, Balanced w.mesh.triangles) ∧
      ∃ done, m.simplify approve = some done ∧ Balanced done.mesh.triangles := by
  have hstart := Simplifying.watertight_start harea hbalanced
  constructor
  · intro steps w hw
    have hwatertight := Simplifying.forall_mem_states Simplifying.Watertight
      (fun w asked s rest hw hs hcan _ => hw.collapse asked rest hs hcan) hstart steps w hw
    exact hwatertight.balanced
  · obtain ⟨done, v, hrun, hv, hmesh⟩ := Simplifying.exists_run approve Simplifying.Watertight
      (fun w asked s rest hw hs hcan _ =>
        ⟨hw.collapse asked rest hs hcan, hw.attached.triangleCount_collapse_lt hs asked rest⟩)
      hstart m.triangleCount_start_lt_stepLimit
    exact ⟨done, hrun, hmesh ▸ hv.balanced⟩

/-- The middle of an edge of the octahedron lands on a vertex of the tetrahedron. The surface stays
balanced, though four triangles meet at an edge then. -/
theorem octahedron_and_tetrahedron_stay_balanced :
    (∀ t ∈ octahedron ++ tetrahedron, t.hasArea = true) ∧ Balanced (octahedron ++ tetrahedron) ∧
      ∃ w ∈ (Simplifying.start (.ofTriangles (octahedron ++ tetrahedron))).states onEdge 1,
        w.mesh.needsRepair = true ∧ Balanced w.mesh.triangles := by
  have htriangles := Mesh.triangles_ofTriangles (octahedron ++ tetrahedron)
  have harea : ∀ t ∈ octahedron ++ tetrahedron, t.hasArea = true := by decide +kernel
  have hbalanced : Balanced (octahedron ++ tetrahedron) := isBalanced_iff_perm.2 (by decide +kernel)
  have hbroken : ((Simplifying.start (.ofTriangles (octahedron ++ tetrahedron))).states onEdge 1).any
      (·.mesh.needsRepair) = true := by decide +kernel
  obtain ⟨w, hw, hbroken⟩ := List.any_eq_true.1 hbroken
  obtain ⟨hstates, -⟩ := Mesh.simplify_stays_balanced (m := .ofTriangles (octahedron ++ tetrahedron))
    (htriangles.symm ▸ harea) (htriangles.symm ▸ hbalanced) onEdge
  exact ⟨harea, hbalanced, w, hw, hbroken, hstates 1 w hw⟩

end Isomesh
