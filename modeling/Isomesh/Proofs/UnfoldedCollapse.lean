import Mathlib
import Isomesh.Proofs.BalancedSimplify
import Isomesh.Proofs.GuidedRuns

/-!
# No collapse folds or flattens a triangle

The test before a collapse looks at each triangle of the two stars from both ends of the edge, and the
collapse then takes the point between. The area normal from the midpoint is the mean of the two that the
test has compared, so it goes in the old direction at least half as far as the old normal: the triangle
turns by less than a right angle and does not lose its area. So no run brings about a triangle without
area where there was none.

* `Triangle.endCount`: how many corners of a triangle are ends of an edge.
* `Triangle.atOne_of_endCount`, `Triangle.pull_eq_map_contract`: triangles with one such corner.
* `Simplifying.Unfolded`: the invariant of a run, kept by each collapse.
* `Mesh.collapse_folds_no_triangle`: the main result.
-/

set_option autoImplicit false

namespace Isomesh

/-! ## Triangles with one corner at an edge -/

section Ends

variable {K : Type} [Scalar K] {s : Segment K} {t : Triangle K}

/-- How many corners of a triangle are ends of an edge. -/
def Triangle.endCount (s : Segment K) (t : Triangle K) : Nat := t.corners.countP fun p => s.hasEnd p.key

namespace Triangle

theorem atOne_of_endCount (hne : s.lo.key ≠ s.hi.key) (h : t.endCount s = 1) : t.atOne s = true := by
  simp only [endCount, corners, List.countP_cons, List.countP_nil, Segment.hasEnd] at h
  simp only [atOne, atEnd, atBoth, hasCorner, placeOf]
  grind

theorem pull_eq_map_contract (h : t.endCount s = 1) : t.pull s = t.map s.contract := by
  simp only [endCount, corners, List.countP_cons, List.countP_nil, Segment.hasEnd] at h
  simp only [pull, map, Segment.contract, Segment.hasEnd, placeOf]
  grind [replace]

end Triangle

end Ends

variable {K : Type} [Field K] [LinearOrder K] [IsStrictOrderedRing K] [FloorRing K] [SquareRoot K]

/-! ## Runs -/

namespace Simplifying

variable {approves : Nat → Approval K} {w v : Simplifying K}

/-- What holds throughout a simplification of triangles with areas. -/
structure Unfolded (w : Simplifying K) : Prop where
  attached : w.Attached
  hasArea : ∀ t ∈ w.mesh.triangles, t.hasArea = true

theorem unfolded_start {m : Mesh K} (harea : ∀ t ∈ m.triangles, t.hasArea = true) :
    (start m).Unfolded where
  attached := attached_start m
  hasArea := (triangles_start m).symm ▸ harea

/-- A collapse of an edge that passes the test keeps the areas, and takes a triangle away. -/
theorem Unfolded.collapse (h : w.Unfolded) (asked : Nat) {s : Segment K} (rest : List (Segment K))
    (hs : s.key ∈ w.waiting) (hcan : w.mesh.canCollapse s = true) :
    (w.collapse asked s rest).Unfolded ∧
      (w.collapse asked s rest).mesh.triangleCount < w.mesh.triangleCount := by
  have hcollapsible := h.attached.collapsible h.hasArea hs hcan
  exact ⟨⟨h.attached.collapse hcollapsible.key_ne asked rest, hcollapsible.hasArea_collapse⟩,
    h.attached.triangleCount_collapse_lt hs asked rest⟩

/-- So does a run, whatever edges are approved. -/
theorem Unfolded.leads (h : w.Unfolded) (hleads : Leads ⟨approves, Segment.mid⟩ w v) : v.Unfolded := by
  induction hleads with
  | refl => exact h
  | tail _ hstep ih =>
    obtain ⟨asked, s, rest, rfl, ⟨hs, hcan, -⟩, -⟩ := of_stepBy_eq_onward hstep
    exact (ih.collapse asked rest hs hcan).1

/-- The run ends. -/
theorem Unfolded.exists_runBy (h : w.Unfolded) (approves : Nat → Approval K) :
    ∃ done, (∀ steps, w.mesh.triangleCount < steps →
        w.runBy ⟨approves, Segment.mid⟩ steps = some done) ∧
      ∀ t ∈ done.mesh.triangles, t.hasArea = true := by
  obtain ⟨done, v, hv, hlast, hrun⟩ := Simplifying.exists_runBy ⟨approves, Segment.mid⟩ Unfolded
    (fun w asked s rest hw hs hcan _ => hw.collapse asked rest hs hcan) h
  exact ⟨done, hrun, (of_stepBy_eq_finished hlast).1 ▸ hv.hasArea⟩

end Simplifying

open Simplifying

namespace Mesh

variable {m : Mesh K}

/-! ## Main result -/

/-- **No collapse folds or flattens a triangle.** In every mesh, a collapse of an edge that passes the
test keeps the triangles away from the edge and attaches the others to the midpoint, apart from those at
both ends. Each triangle with one corner at the edge comes back with an area normal that goes at least
half as far in the old direction: if it had an area it has one now, and has turned by less than a right
angle. So on triangles with areas every simplification ends, and in each of its states all triangles have
areas, however the edges are approved. -/
theorem collapse_folds_no_triangle (hbuilt : m.Built) :
    (∀ (s : Segment K) (waiting : EdgeSet K), s.lo ≠ s.hi → m.canCollapse s = true →
      (m.collapse s waiting).mesh.triangles.Perm ((m.triangles.filter fun t => !t.atEnd s) ++
        (m.triangles.filter (Triangle.atOne s)).map (Triangle.pull s)) ∧
      ∀ t ∈ m.triangles, t.endCount s = 1 → t.atOne s = true ∧ t.pull s = t.map s.contract ∧
        t.areaNormal.normSq / 2 ≤ (t.pull s).areaNormal.dot t.areaNormal ∧
        (t.hasArea = true →
          (t.pull s).hasArea = true ∧ 0 < (t.pull s).areaNormal.dot t.areaNormal)) ∧
    ((∀ t ∈ m.triangles, t.hasArea = true) → ∀ approves : Nat → Approval K,
      (∀ w, Leads ⟨approves, Segment.mid⟩ (start m) w → ∀ t ∈ w.mesh.triangles, t.hasArea = true) ∧
      ∃ done, (∀ steps, m.triangleCount < steps →
          (start m).runBy ⟨approves, Segment.mid⟩ steps = some done) ∧
        (∀ t ∈ done.mesh.triangles, t.hasArea = true) ∧
        ∀ approve, approves = (fun _ => approve) → m.simplify approve = some done) := by
  refine ⟨fun s waiting hne hcan => ⟨hbuilt.coherent.perm_collapse s waiting, fun t ht hcount => ?_⟩,
    fun harea approves => ?_⟩
  · have hone := Triangle.atOne_of_endCount (fun hkey => hne (Exact.key_inj.1 hkey)) hcount
    have hdot := hbuilt.coherent.le_dot_areaNormal_pull hcan ht hone
    refine ⟨hone, Triangle.pull_eq_map_contract hcount, hdot, fun harea => ?_⟩
    exact ⟨hbuilt.coherent.hasArea_pull hcan ht harea hone, Triangle.dot_areaNormal_pos harea hdot⟩
  · have hstart := unfolded_start harea
    obtain ⟨done, hrun, hdone⟩ := hstart.exists_runBy approves
    refine ⟨fun w hleads => (hstart.leads hleads).hasArea, done, triangleCount_start m ▸ hrun, hdone, ?_⟩
    rintro approve rfl
    rw [simplify, run_eq_runBy]
    exact hrun m.stepLimit m.triangleCount_start_lt_stepLimit

/-- A flap at one end of an edge. From the two ends it looks to directions at a right angle. -/
def flap : Triangle ℚ := ⟨⟨0, 0, 0⟩, ⟨0, 0, 1⟩, ⟨2, 0, 0⟩⟩

/-- The flap and a triangle at the edge. -/
def hinge : Mesh ℚ := .ofTriangles [flap, ⟨⟨2, 0, 0⟩, ⟨0, 2, 0⟩, ⟨3, 3, 0⟩⟩]

/-- The collapse turns the flap as far as the test allows, and leaves it half of its normal. -/
theorem hinge_folds_nothing : let s := Segment.between ⟨2, 0, 0⟩ ⟨0, 2, 0⟩
    hinge.canCollapse s = true ∧ flap ∈ hinge.triangles ∧ flap.endCount s = 1 ∧
      flap.areaNormal.normSq / 2 = (flap.pull s).areaNormal.dot flap.areaNormal ∧
      (flap.pull s).hasArea = true ∧ 0 < (flap.pull s).areaNormal.dot flap.areaNormal ∧
      ∃ done, hinge.simplify (fun _ _ => true) = some done ∧
        ∀ t ∈ done.mesh.triangles, t.hasArea = true := by
  intro s
  have hcan : hinge.canCollapse s = true := by decide +kernel
  have hmem : flap ∈ hinge.triangles := by decide +kernel
  have hcount : flap.endCount s = 1 := by decide +kernel
  obtain ⟨hcollapse, hruns⟩ := collapse_folds_no_triangle
    (built_ofTriangles [flap, ⟨⟨2, 0, 0⟩, ⟨0, 2, 0⟩, ⟨3, 3, 0⟩⟩])
  obtain ⟨-, hflap⟩ := hcollapse s ∅ (by decide +kernel) hcan
  obtain ⟨-, -, -, harea⟩ := hflap flap hmem hcount
  obtain ⟨-, done, -, hdone, hsimplify⟩ := hruns (by decide +kernel) fun _ _ _ => true
  exact ⟨hcan, hmem, hcount, by decide +kernel, (harea (by decide +kernel)).1,
    (harea (by decide +kernel)).2, done, hsimplify _ rfl, hdone⟩

end Mesh

end Isomesh
