import Mathlib
import Isomesh.Proofs.CollapseSteps
import Isomesh.Proofs.Exact

/-!
# Simplification ends

On any mesh, with degenerate triangles and borders, a simplification ends as long as no edge is approved
whose ends have one key. The answers may come from anywhere and change from question to question, and
an edge may be collapsed to any point, an end or another vertex included. What carries this is that no edge
waits which the mesh has lost, not even in the course of a collapse: so a collapse finds a triangle to
take away.

* `Mesh.moments`: the course of a collapse.
* `Simplifying.Leads`: the states that a guided run reaches.
* `Mesh.guided_simplify_ends`: the main result.
-/

set_option autoImplicit false

namespace Isomesh

variable {K : Type} [Scalar K]

/-- Whether no edge is approved whose ends have one key. -/
def Guide.NeedsTwoEnds (g : Guide K) : Prop :=
  ∀ n m s, g.approves n m s = true → s.lo.key ≠ s.hi.key

namespace Mesh

/-- The edges that wait and the mesh in the course of a collapse: at its start and after each visit. -/
def moments (m : Mesh K) (p : Vec3 K) (s : Segment K) (waiting : EdgeSet K) : List (Collapsing K) :=
  (m.visits s).inits.map fun visited =>
    visited.foldl (fun c e => c.visitTo p s e.1 e.2) ⟨m, waiting, []⟩

variable {m : Mesh K}

theorem Coherent.attached_moments (h : m.Coherent) {s : Segment K} (hne : s.lo.key ≠ s.hi.key)
    {waiting : EdgeSet K} (hwaiting : waiting.Attached m.triangles) (p : Vec3 K) :
    ∀ c ∈ m.moments p s waiting, ∀ k ∈ c.waiting, k ∈ c.mesh.edges.map Segment.key := by
  intro c hc
  obtain ⟨visited, hvisited, rfl⟩ := List.mem_map.1 hc
  exact attached_iff.1 (h.attached_of_prefix hne hwaiting p ((List.mem_inits _ _).1 hvisited))

end Mesh

namespace Simplifying

/-- Whether a guided run comes from one state to another. -/
def Leads (g : Guide K) : Simplifying K → Simplifying K → Prop :=
  Relation.ReflTransGen fun w next => w.stepBy g = .onward next

variable {g : Guide K} {w v next : Simplifying K}

/-- A step keeps the edges that wait attached. -/
theorem Attached.stepBy (h : w.Attached) (hg : g.NeedsTwoEnds) (hstep : w.stepBy g = .onward next) :
    ∃ asked s rest, next = w.collapseTo (g.target s) asked s rest ∧ s.lo.key ≠ s.hi.key ∧
      s.key ∈ w.waiting ∧ next.Attached := by
  obtain ⟨asked, s, rest, rfl, ⟨hs, -, n, happroved⟩, -⟩ := of_stepBy_eq_onward hstep
  have hne := hg n w.mesh s happroved
  exact ⟨asked, s, rest, rfl, hne, hs, h.collapseTo hne (g.target s) asked rest⟩

/-- So does a run. -/
theorem Attached.leads (h : w.Attached) (hg : g.NeedsTwoEnds) (hleads : Leads g w v) :
    v.Attached := by
  induction hleads with
  | refl => exact h
  | tail _ hstep ih =>
    obtain ⟨_, _, _, _, _, _, hnext⟩ := ih.stepBy hg hstep
    exact hnext

/-- A guided run ends. The edges it collapses and the triangles it leaves are together no more than
before, because a collapse takes a triangle away. -/
theorem Attached.exists_runBy (h : w.Attached) (hg : g.NeedsTwoEnds) :
    ∃ done, (∀ steps, w.mesh.triangleCount < steps → w.runBy g steps = some done) ∧
      done.collapsed.length + done.mesh.triangleCount ≤
        w.collapsed.length + w.mesh.triangleCount := by
  obtain ⟨done, v, ⟨-, hle⟩, hlast, hrun⟩ := Simplifying.exists_runBy g
    (fun v => v.Attached ∧
      v.collapsed.length + v.mesh.triangleCount ≤ w.collapsed.length + w.mesh.triangleCount)
    (fun v asked s rest ⟨hv, hle⟩ hs _ ⟨n, happroved⟩ => by
      obtain ⟨hpos, hless⟩ := hv.triangleCount_collapseTo hs (g.target s) asked rest
      have hlength : (v.collapseTo (g.target s) asked s rest).collapsed.length =
          v.collapsed.length + 1 := by
        rw [Simplifying.collapseTo, List.length_append, List.length_singleton]
      refine ⟨⟨hv.collapseTo (hg n v.mesh s happroved) _ asked rest, ?_⟩, ?_⟩ <;> omega)
    ⟨h, le_rfl⟩
  obtain ⟨hmesh, hcollapsed⟩ := of_stepBy_eq_finished hlast
  exact ⟨done, hrun, by rwa [hmesh, hcollapsed]⟩

end Simplifying

open Simplifying

/-- **Simplification ends and shrinks the mesh**, under any guidance that approves no edge whose ends have
one key. The edges that wait are edges of the mesh, in each state and at each moment of a collapse. A
collapse takes the triangles at both ends away, of which there is at least one. So the run returns after
any number of steps above that of the triangles, and has collapsed at most as many edges. -/
theorem Mesh.guided_simplify_ends (m : Mesh K) {g : Guide K} (hg : g.NeedsTwoEnds) :
    (∀ w, Leads g (start m) w →
      (∀ k ∈ w.waiting, k ∈ w.mesh.edges.map Segment.key) ∧
      ∀ next, w.stepBy g = .onward next → ∃ s, next.collapsed = w.collapsed ++ [s] ∧
        (∀ c ∈ w.mesh.moments (g.target s) s w.waiting,
          ∀ k ∈ c.waiting, k ∈ c.mesh.edges.map Segment.key) ∧
        0 < w.mesh.triangles.countP (Triangle.atBoth s) ∧
        next.mesh.triangleCount + w.mesh.triangles.countP (Triangle.atBoth s) =
          w.mesh.triangleCount) ∧
    ∃ done, (∀ steps, m.triangleCount < steps → (start m).runBy g steps = some done) ∧
      done.collapsed.length ≤ m.triangleCount ∧
      ∀ approve, g = .ofApproval approve → m.simplify approve = some done := by
  have hstart := attached_start m
  have hcount : (start m).mesh.triangleCount = m.triangleCount := by
    rw [triangleCount_eq_length, triangles_start, triangleCount_eq_length]
  constructor
  · intro w hleads
    have hw := hstart.leads hg hleads
    refine ⟨attached_iff.1 hw.waiting, fun next hstep => ?_⟩
    obtain ⟨asked, s, rest, rfl, hne, hs, -⟩ := hw.stepBy hg hstep
    exact ⟨s, rfl, hw.coherent.attached_moments hne hw.waiting _,
      hw.triangleCount_collapseTo hs (g.target s) asked rest⟩
  · obtain ⟨done, hrun, hle⟩ := hstart.exists_runBy hg
    rw [hcount] at hrun hle
    refine ⟨done, hrun, ?_, ?_⟩
    · rw [start, List.length_nil] at hle
      omega
    · rintro approve rfl
      rw [simplify, run_eq_runBy]
      exact hrun m.stepLimit (hcount ▸ m.triangleCount_start_lt_stepLimit)

/-- Triangles with a border, one of them without area. -/
def banner : List (Triangle ℚ) :=
  [⟨⟨0, 0, 0⟩, ⟨4, 0, 0⟩, ⟨0, 4, 0⟩⟩, ⟨⟨4, 0, 0⟩, ⟨4, 4, 0⟩, ⟨0, 4, 0⟩⟩,
    ⟨⟨4, 4, 0⟩, ⟨8, 4, 0⟩, ⟨8, 4, 0⟩⟩, ⟨⟨4, 0, 0⟩, ⟨8, 4, 0⟩, ⟨4, 4, 0⟩⟩]

/-- Says yes to every other question and takes edges to one of their ends. -/
def everyOther : Guide ℚ := ⟨fun n _ s => n % 2 = 1 && s.lo.key ≠ s.hi.key, Segment.lo⟩

/-- Three collapses take the four triangles away. -/
theorem guided_simplify_banner_ends :
    everyOther.NeedsTwoEnds ∧
      ∃ done, (∀ steps, 4 < steps →
          (start (.ofTriangles banner)).runBy everyOther steps = some done) ∧
        done.collapsed.length = 3 ∧ done.mesh.triangleCount = 0 := by
  have hends : everyOther.NeedsTwoEnds := fun n m s happroved => by
    simpa using ((Bool.and_eq_true ..).mp happroved).2
  obtain ⟨-, done, hrun, -⟩ := Mesh.guided_simplify_ends (.ofTriangles banner) hends
  have hdone : ((start (.ofTriangles banner)).runBy everyOther 5).map
      (fun done => (done.collapsed.length, done.mesh.triangleCount)) = some (3, 0) := by
    decide +kernel
  rw [hrun 5 (by decide +kernel)] at hdone
  obtain ⟨hcollapsed, htriangles⟩ := Prod.mk.injEq .. ▸ Option.some.inj hdone
  exact ⟨hends, done, hrun, hcollapsed, htriangles⟩

end Isomesh
