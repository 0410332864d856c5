import Mathlib
import Isomesh.Simplify
import Isomesh.Proofs.CollapseManifold
import Isomesh.Proofs.CollapseSteps

/-!
# When simplification keeps a mesh manifold

Each step of a simplification collapses an edge that passes the test, on a mesh of triangles with
areas. This is an invariant of the whole run, whatever the approval says. So the meshes of a run are
manifold up to the first collapse that does not land clear, and that one breaks the surface.

* `Simplifying.Sound`: the invariant, kept by each step.
* `Simplifying.states`: what a run goes through.
* `Simplifying.Sound.needsRepair_states_iff`: a run that keeps the mesh manifold.
* `Approval.whileManifold`: a run that stops where the mesh breaks.
-/

set_option autoImplicit false

namespace Isomesh

/-! ## Runs -/

section Runs

variable {K : Type} [Scalar K]

/-- The same test, but no edge is approved on a mesh that needs repair. -/
def Approval.whileManifold (approve : Approval K) : Approval K := fun m s =>
  !m.needsRepair && approve m s

namespace Simplifying

/-- The states that a run goes through, the first one included. -/
def states (approve : Approval K) : Nat → Simplifying K → List (Simplifying K)
  | 0, w => [w]
  | steps + 1, w =>
    match w.step approve with
    | .finished _ => [w]
    | .onward next => w :: states approve steps next

/-- Whether the next collapse lands clear, if there is one. -/
def landsClear (approve : Approval K) (w : Simplifying K) : Bool :=
  match w.step approve with
  | .finished _ => true
  | .onward next => next.collapsed.getLast?.all w.mesh.landsClear

variable {approve : Approval K} {w done : Simplifying K}

theorem self_mem_states {steps : Nat} (w : Simplifying K) : w ∈ w.states approve steps := by
  cases steps with
  | zero => exact List.mem_singleton_self w
  | succ steps =>
    unfold states
    split
    · exact List.mem_singleton_self w
    · exact List.mem_cons_self

/-- A run returns the mesh of one of its states. -/
theorem exists_state_of_run {steps : Nat} (h : w.run approve steps = some done) :
    ∃ v ∈ w.states approve steps, done.mesh = v.mesh := by
  induction steps generalizing w with
  | zero => cases h
  | succ steps ih =>
    unfold run at h
    unfold states
    cases hstep : w.step approve with
    | finished last =>
      rw [hstep] at h
      cases h
      exact ⟨w, List.mem_singleton_self w, mesh_of_step_eq_finished hstep⟩
    | onward next =>
      rw [hstep] at h
      obtain ⟨v, hv, hmesh⟩ := ih h
      exact ⟨v, List.mem_cons_of_mem w hv, hmesh⟩

end Simplifying

end Runs

variable {K : Type} [Field K] [LinearOrder K] [IsStrictOrderedRing K] [FloorRing K] [SquareRoot K]

/-! ## Edges with two ends -/

theorem Segment.lo_ne_hi_between {p q : Vec3 K} (h : p ≠ q) :
    (between p q).lo ≠ (between p q).hi := by
  unfold between
  split
  · exact h
  · exact h.symm

/-- Whether the edges of a set have different ends. -/
def EdgeSet.Proper (set : EdgeSet K) : Prop :=
  ∀ (k : EdgeKey K) (e : Segment K), set[k]? = some e → e.lo ≠ e.hi

namespace EdgeSet

variable {set : EdgeSet K}

theorem Proper.withoutTouching (h : set.Proper) (s : Segment K) (t : Triangle K) :
    (set.withoutTouching s t).Proper :=
  Each.withoutTouching h s t

theorem Proper.insertAll (es : List (Segment K)) (hes : ∀ e ∈ es, e.lo ≠ e.hi) (h : set.Proper) :
    Proper (es.foldl (fun set e => set.insertIfNew e.key e) set) :=
  Each.insertAll h es hes

theorem Proper.of_mem_values (h : set.Proper) {e : Segment K} (he : e ∈ set.values) :
    e.lo ≠ e.hi := by
  obtain ⟨k, he⟩ := mem_values_iff.1 he
  exact h k e he

end EdgeSet

/-- Whether the edges that a collapse keeps a record of have different ends. -/
structure Collapsing.Proper (c : Collapsing K) : Prop where
  waiting : c.waiting.Proper
  added : ∀ e ∈ c.added, e.lo ≠ e.hi

theorem Collapsing.Proper.visit {s : Segment K} {c : Collapsing K} (h : c.Proper) {id : TriangleId}
    {t : Triangle K} (ht : c.mesh.get? id = some t) {both : Bool}
    (hpull : both = false → (t.pull s).hasArea = true) : (c.visit s id both).Proper := by
  obtain ⟨rest, hrem, -⟩ := Mesh.exists_remove? ht
  have hwaiting := h.waiting.withoutTouching s t
  unfold Collapsing.visit
  simp only [hrem]
  cases both with
  | true => exact ⟨hwaiting, h.added⟩
  | false =>
    simp only [Bool.false_eq_true, if_false]
    split
    · exact ⟨hwaiting, h.added⟩
    · rename_i place hplace
      have harea := hpull rfl
      rw [Triangle.pull, hplace] at harea
      obtain ⟨hne1, hne2⟩ := Triangle.ne_following_of_hasArea t place harea
      have hsides : ∀ e ∈ [Segment.between s.mid (t.following place).1,
          Segment.between s.mid (t.following place).2], e.lo ≠ e.hi := by
        simp [Segment.lo_ne_hi_between hne1, Segment.lo_ne_hi_between hne2]
      exact ⟨hwaiting.insertAll _ hsides, List.forall_mem_append.2 ⟨h.added, hsides⟩⟩

theorem Mesh.Collapsible.proper_collapse {m : Mesh K} {s : Segment K} {waiting : EdgeSet K}
    (h : m.Collapsible s) (hwaiting : waiting.Proper) : (m.collapse s waiting).Proper := by
  refine Collapsing.foldl_induction (p := s.mid) (c := ⟨m, waiting, []⟩)
    (Q := fun t both => both = false → (t.pull s).hasArea = true) (m.visits s)
    (h.coherent.nodup_visits s) (fun e he => ?_) (fun c id both t ht hQ hc => hc.visit ht hQ)
    ⟨hwaiting, by simp⟩
  obtain ⟨t, ht, hend, hboth⟩ := h.coherent.mem_visits.1 he
  refine ⟨t, ht, hend, fun hfalse => h.hasArea_pull (Mesh.mem_triangles_iff.2 ⟨e.1, ht⟩) ?_⟩
  simp [Triangle.atOne, hend, hboth, hfalse]

/-! ## The invariant of a run -/

namespace Simplifying

variable {approve : Approval K} {w next done : Simplifying K}

/-- What holds throughout a simplification of triangles with areas. -/
structure Sound (w : Simplifying K) : Prop where
  coherent : w.mesh.Coherent
  hasArea : ∀ t ∈ w.mesh.triangles, t.hasArea = true
  waiting : w.waiting.Proper
  queue : ∀ e ∈ w.queue, e.lo ≠ e.hi

theorem sound_start {m : Mesh K} (harea : ∀ t ∈ m.triangles, t.hasArea = true) :
    (start m).Sound where
  coherent := (Mesh.coherent_ofTriangles m.triangles).indexed
  hasArea t ht := harea t ((Mesh.triangles_ofTriangles m.triangles) ▸ ht)
  waiting := by
    refine EdgeSet.Proper.insertAll m.edges (fun e he => ?_) fun k e he => ?_
    · obtain ⟨t, ht, he⟩ := Mesh.exists_of_mem_edges he
      obtain ⟨side, hside, rfl⟩ := List.mem_map.1 he
      exact Segment.lo_ne_hi_between (Triangle.ne_of_mem_sides (harea t ht) hside)
    · simp at he
  queue := by simp [start]

/-- What a step collapses, and that it keeps the invariant. -/
theorem Sound.step (h : w.Sound) (hstep : w.step approve = .onward next) :
    ∃ s, w.mesh.Collapsible s ∧ next.mesh = (w.mesh.collapse s w.waiting).mesh ∧
      next.collapsed = w.collapsed ++ [s] ∧ next.Sound := by
  obtain ⟨asked, s, rest, rfl, ⟨-, hcan, -⟩, hmem⟩ := of_step_eq_onward hstep
  have hproper : ∀ e ∈ s :: rest, e.lo ≠ e.hi := fun e he =>
    (hmem e he).elim (h.queue e) h.waiting.of_mem_values
  obtain ⟨hs, hrest⟩ := List.forall_mem_cons.1 hproper
  have hcollapsible : w.mesh.Collapsible s := ⟨h.coherent, h.hasArea, hs, hcan⟩
  have hcollapse := hcollapsible.proper_collapse h.waiting
  refine ⟨s, hcollapsible, rfl, rfl, ?_⟩
  exact {
    coherent := h.coherent.collapse s w.waiting
    hasArea := hcollapsible.hasArea_collapse
    waiting := hcollapse.waiting
    queue := List.forall_mem_append.2 ⟨hrest, hcollapse.added⟩ }

/-- A step keeps a mesh manifold just when it lands clear. -/
theorem Sound.needsRepair_step_iff (h : w.Sound) (hm : w.mesh.needsRepair = false)
    (hstep : w.step approve = .onward next) :
    next.mesh.needsRepair = false ↔ w.landsClear approve = true := by
  obtain ⟨s, hcollapsible, hmesh, hcollapsed, -⟩ := h.step hstep
  rw [hmesh, hcollapsible.needsRepair_collapse_iff hm, landsClear, hstep]
  simp [hcollapsed]

/-- All meshes of a run are manifold just when all its collapses land clear. By induction on the number
of steps; the first collapse that does not land clear breaks the mesh of the next state. -/
theorem Sound.needsRepair_states_iff (h : w.Sound) (hm : w.mesh.needsRepair = false) {steps : Nat}
    (hrun : w.run approve steps = some done) :
    (∀ v ∈ w.states approve steps, v.mesh.needsRepair = false) ↔
      ∀ v ∈ w.states approve steps, v.landsClear approve = true := by
  induction steps generalizing w with
  | zero => cases hrun
  | succ steps ih =>
    unfold Simplifying.run at hrun
    unfold states
    cases hstep : w.step approve with
    | finished last => simp [hm, landsClear, hstep]
    | onward next =>
      rw [hstep] at hrun
      obtain ⟨s, -, -, -, hnext⟩ := h.step hstep
      have hiff := h.needsRepair_step_iff hm hstep
      simp only [List.forall_mem_cons, hm, true_and]
      constructor
      · intro hall
        have hnextm := hall next (self_mem_states next)
        exact ⟨hiff.1 hnextm, (ih hnext hnextm hrun).1 hall⟩
      · rintro ⟨hclear, hall⟩
        exact (ih hnext (hiff.2 hclear) hrun).2 hall

/-! ## Stopping at the first broken mesh -/

theorem firstApproved_whileManifold (hm : w.mesh.needsRepair = false) (queue : List (Segment K)) :
    w.firstApproved approve.whileManifold queue = w.firstApproved approve queue := by
  induction queue with
  | nil => rfl
  | cons s queue ih => simp only [firstApproved, ih, Approval.whileManifold, hm, Bool.not_false,
      Bool.true_and]

theorem exists_firstApproved_eq_none (approve : Approval K) (hm : w.mesh.needsRepair = true)
    (queue : List (Segment K)) : ∃ asked, w.firstApproved approve.whileManifold queue = (asked, none) := by
  induction queue with
  | nil => exact ⟨0, rfl⟩
  | cons s queue ih =>
    obtain ⟨asked, hasked⟩ := ih
    simp only [firstApproved, hasked, Approval.whileManifold, hm, Bool.not_true, Bool.false_and,
      Bool.false_eq_true, if_false]
    split
    · exact ⟨_, rfl⟩
    · exact ⟨_, rfl⟩

theorem step_whileManifold (hm : w.mesh.needsRepair = false) :
    w.step approve.whileManifold = w.step approve := by
  simp only [step, firstApproved_whileManifold hm]

theorem exists_step_eq_finished (approve : Approval K) (hm : w.mesh.needsRepair = true) :
    ∃ last, w.step approve.whileManifold = .finished last := by
  obtain ⟨asked, hasked⟩ := exists_firstApproved_eq_none approve hm w.queue
  obtain ⟨again, hagain⟩ := exists_firstApproved_eq_none approve hm w.waiting.values
  simp only [step, hasked, hagain]
  exact ⟨_, rfl⟩

/-- A run that breaks the mesh on its way returns a broken mesh when it stops there. -/
theorem exists_run_whileManifold (hm : w.mesh.needsRepair = false) {steps : Nat}
    (hrun : w.run approve steps = some done)
    (hbroken : ∃ v ∈ w.states approve steps, v.mesh.needsRepair = true) :
    ∃ last, w.run approve.whileManifold steps = some last ∧ last.mesh.needsRepair = true := by
  induction steps generalizing w with
  | zero => cases hrun
  | succ steps ih =>
    unfold Simplifying.run at hrun ⊢
    unfold states at hbroken
    rw [step_whileManifold hm]
    cases hstep : w.step approve with
    | finished last => simp [hstep, hm] at hbroken
    | onward next =>
      rw [hstep] at hrun hbroken
      simp only [List.exists_mem_cons_iff, hm, Bool.false_eq_true, false_or] at hbroken
      cases hnext : next.mesh.needsRepair with
      | false => exact ih hnext hrun hbroken
      | true =>
        cases steps with
        | zero => cases hrun
        | succ steps =>
          obtain ⟨last, hlast⟩ := exists_step_eq_finished approve hnext
          refine ⟨last, ?_, ?_⟩
          · simp only [Simplifying.run, hlast]
          · rw [mesh_of_step_eq_finished hlast, hnext]

end Simplifying

/-! ## Main results -/

/-- **When simplification keeps a mesh manifold.** In a run that returns, all meshes are manifold just
when all collapses land clear; then the result is manifold too. For a given mesh the results under all
approvals are manifold just when the collapses under all approvals land clear. -/
theorem simplify_manifold_iff {m : Mesh K} (hbuilt : m.Built)
    (harea : ∀ t ∈ m.triangles, t.hasArea = true) (hm : m.needsRepair = false) :
    (∀ approve steps done, (Simplifying.start m).run approve steps = some done →
      ((∀ w ∈ (Simplifying.start m).states approve steps, w.landsClear approve = true) →
        done.mesh.needsRepair = false) ∧
      ((∀ w ∈ (Simplifying.start m).states approve steps, w.mesh.needsRepair = false) ↔
        ∀ w ∈ (Simplifying.start m).states approve steps, w.landsClear approve = true)) ∧
    ((∀ approve steps done, (Simplifying.start m).run approve steps = some done →
        done.mesh.needsRepair = false) ↔
      ∀ approve steps done, (Simplifying.start m).run approve steps = some done →
        ∀ w ∈ (Simplifying.start m).states approve steps, w.landsClear approve = true) := by
  have hsound := Simplifying.sound_start harea
  have hstart : (Simplifying.start m).mesh.needsRepair = false := by
    have htriangles : (Simplifying.start m).mesh.triangles = m.triangles :=
      Mesh.triangles_ofTriangles m.triangles
    rw [hsound.coherent.needsRepair_eq_false_iff, htriangles]
    exact hbuilt.coherent.needsRepair_eq_false_iff.1 hm
  have hrun {approve : Approval K} {steps : Nat} {done : Simplifying K}
      (hrun : (Simplifying.start m).run approve steps = some done)
      (hclear : ∀ w ∈ (Simplifying.start m).states approve steps, w.landsClear approve = true) :
      done.mesh.needsRepair = false := by
    obtain ⟨w, hw, hmesh⟩ := Simplifying.exists_state_of_run hrun
    rw [hmesh]
    exact (hsound.needsRepair_states_iff hstart hrun).2 hclear w hw
  refine ⟨fun approve steps done hdone => ⟨hrun hdone, hsound.needsRepair_states_iff hstart hdone⟩,
    fun hall approve steps done hdone => ?_, fun hclear approve steps done hdone =>
      hrun hdone (hclear approve steps done hdone)⟩
  rw [← hsound.needsRepair_states_iff hstart hdone]
  by_contra hbroken
  simp only [not_forall, Bool.not_eq_false] at hbroken
  obtain ⟨w, hw, hbroken⟩ := hbroken
  obtain ⟨last, hlast, hrepair⟩ :=
    Simplifying.exists_run_whileManifold hstart hdone ⟨w, hw, hbroken⟩
  rw [hall _ _ _ hlast] at hrepair
  cases hrepair

/-- An octahedron around the origin. -/
def octahedron : List (Triangle ℚ) :=
  [⟨⟨2, 0, 0⟩, ⟨0, 2, 0⟩, ⟨0, 0, 2⟩⟩, ⟨⟨0, 2, 0⟩, ⟨-2, 0, 0⟩, ⟨0, 0, 2⟩⟩,
    ⟨⟨-2, 0, 0⟩, ⟨0, -2, 0⟩, ⟨0, 0, 2⟩⟩, ⟨⟨0, -2, 0⟩, ⟨2, 0, 0⟩, ⟨0, 0, 2⟩⟩,
    ⟨⟨0, 2, 0⟩, ⟨2, 0, 0⟩, ⟨0, 0, -2⟩⟩, ⟨⟨-2, 0, 0⟩, ⟨0, 2, 0⟩, ⟨0, 0, -2⟩⟩,
    ⟨⟨0, -2, 0⟩, ⟨-2, 0, 0⟩, ⟨0, 0, -2⟩⟩, ⟨⟨2, 0, 0⟩, ⟨0, -2, 0⟩, ⟨0, 0, -2⟩⟩]

/-- A tetrahedron with one vertex in the middle of an edge of the octahedron and one in common. -/
def tetrahedron : List (Triangle ℚ) :=
  [⟨⟨0, 0, 2⟩, ⟨1, 1, 0⟩, ⟨5, 5, 0⟩⟩, ⟨⟨0, 0, 2⟩, ⟨5, 5, 0⟩, ⟨5, 5, 4⟩⟩,
    ⟨⟨0, 0, 2⟩, ⟨5, 5, 4⟩, ⟨1, 1, 0⟩⟩, ⟨⟨1, 1, 0⟩, ⟨5, 5, 4⟩, ⟨5, 5, 0⟩⟩]

/-- Approves the edge of the octahedron with that middle. -/
def onEdge : Approval ℚ := fun _ s =>
  s.hasEnd (⟨2, 0, 0⟩ : Vec3 ℚ).key && s.hasEnd (⟨0, 2, 0⟩ : Vec3 ℚ).key

/-- Without the tetrahedron the collapse lands clear. -/
theorem octahedron_stays_manifold :
    ∃ done, (Simplifying.start (.ofTriangles octahedron)).run onEdge 2 = some done ∧
      done.mesh.triangleCount = 6 ∧ done.mesh.needsRepair = false := by
  have hcount : ((Simplifying.start (.ofTriangles octahedron)).run onEdge 2).map
      (·.mesh.triangleCount) = some 6 := by decide +kernel
  obtain ⟨done, hrun, hcount⟩ := Option.map_eq_some_iff.1 hcount
  refine ⟨done, hrun, hcount, ?_⟩
  have hruns := (simplify_manifold_iff (Mesh.built_ofTriangles octahedron)
    (by rw [Mesh.triangles_ofTriangles]; decide +kernel) (by decide +kernel)).1 onEdge 2 done hrun
  exact hruns.1 (by decide +kernel)

/-- **Simplification can break a manifold.** The edge between the common vertex and the middle ends up
with four triangles. -/
theorem not_simplify_manifold :
    ¬∀ m : Mesh ℚ, m.Built → (∀ t ∈ m.triangles, t.hasArea = true) → m.needsRepair = false →
      ∀ approve steps done, (Simplifying.start m).run approve steps = some done →
        done.mesh.needsRepair = false := by
  intro hall
  have hbroken : ((Simplifying.start (.ofTriangles (octahedron ++ tetrahedron))).run onEdge 2).map
      (·.mesh.needsRepair) = some true := by decide +kernel
  obtain ⟨done, hrun, hbroken⟩ := Option.map_eq_some_iff.1 hbroken
  have hm := hall (.ofTriangles (octahedron ++ tetrahedron)) (Mesh.built_ofTriangles _)
    (by rw [Mesh.triangles_ofTriangles]; decide +kernel) (by decide +kernel) onEdge 2 done hrun
  rw [hm] at hbroken
  cases hbroken

end Isomesh
