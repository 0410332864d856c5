import Mathlib
import Isomesh.Proofs.BalancedSimplify

/-!
# Simplification reaches a fixpoint

Among triangles with areas the edges that wait are the edges of the mesh, no more and no less. A visit strikes
the sides at the old ends only, and enters those of the triangle it attaches. So every side that is away
from the old ends waits at each moment of a collapse. After the last visit no triangle is left at the old
ends, and then all sides are away from there. The last step of a run asks for all edges that wait.

* `EdgeSet.CoversAway`: the invariant of the visits, in any arithmetic.
* `Simplifying.Exhaustive`: the invariant of a run; `Exhaustive.mem_values_iff`.
* `Mesh.simplify_reaches_fixpoint`: the main result.
-/

set_option autoImplicit false

namespace Isomesh

section Visits

variable {K : Type} [Scalar K]

/-- Whether a segment touches another depends on its key. -/
theorem Segment.touches_congr {e f s : Segment K} (h : e.key = f.key) :
    e.touches s = f.touches s := by
  obtain ⟨hlo, hhi⟩ := (EdgeKey.mk.injEq ..).mp h
  rw [touches, touches, hlo, hhi]

/-- The sides of a triangle with a new corner: two at the corner, and the old one across from it. -/
theorem Triangle.key_of_mem_segments_replace {t : Triangle K} {place : Place} {p : Vec3 K}
    {e : Segment K} (he : e ∈ (t.replace place p).segments) :
    (∃ f ∈ [Segment.between p (t.following place).1, Segment.between p (t.following place).2],
      f.key = e.key) ∨ ∃ f ∈ t.segments, f.key = e.key := by
  cases place <;>
    simp only [segments, sides, replace, following, List.map_cons, List.map_nil, List.mem_cons,
      List.not_mem_nil, or_false] at he ⊢ <;>
    rcases he with rfl | rfl | rfl <;>
    simp [Segment.key_between_comm p]

theorem Triangle.touches_eq_false {s : Segment K} {t : Triangle K} (h : t.atEnd s = false)
    {e : Segment K} (he : e ∈ t.segments) : e.touches s = false := by
  obtain ⟨side, hside, rfl⟩ := List.mem_map.1 he
  obtain ⟨hfst, hsnd⟩ := mem_corners_of_mem_sides hside
  rw [Segment.touches_between, hasEnd_of_mem_corners h hfst, hasEnd_of_mem_corners h hsnd,
    Bool.or_self]

namespace EdgeSet

/-- Whether each edge of a set is under its own key. -/
def Keyed (set : EdgeSet K) : Prop := set.Each fun k e => e.key = k

/-- Whether all sides of some triangles are in a set. -/
def Covers (set : EdgeSet K) (ts : List (Triangle K)) : Prop :=
  ∀ t ∈ ts, ∀ e ∈ t.segments, e.key ∈ set

/-- Whether all sides of some triangles that do not touch an edge are in a set. -/
def CoversAway (set : EdgeSet K) (s : Segment K) (ts : List (Triangle K)) : Prop :=
  ∀ t ∈ ts, ∀ e ∈ t.segments, e.touches s = false → e.key ∈ set

/-- Sides that touch an edge are struck, and no others. -/
theorem mem_withoutTouching_of_away {set : EdgeSet K} {s e : Segment K} (t : Triangle K)
    (he : e.key ∈ set) (haway : e.touches s = false) : e.key ∈ set.withoutTouching s t := by
  refine mem_withoutTouching.2 ⟨he, fun f _ htouches hkey => ?_⟩
  rw [Segment.touches_congr hkey, haway] at htouches
  cases htouches

end EdgeSet

namespace Collapsing

variable {p : Vec3 K} {s : Segment K} {c : Collapsing K} {id : TriangleId} {t : Triangle K} {both : Bool}

/-- A triangle after a visit was there before, or is the one that has been attached. -/
theorem mem_triangles_visitTo (ht : c.mesh.get? id = some t) (hend : t.atEnd s = true)
    {u : Triangle K} (hu : u ∈ (c.visitTo p s id both).mesh.triangles) :
    u ∈ c.mesh.triangles ∨ both = false ∧ u = t.pullTo p s := by
  classical
  obtain ⟨hcount, -⟩ := visitTo_spec (p := p) ht hend both fun v => decide (v = u)
  have hpos : 0 < (c.visitTo p s id both).mesh.triangles.countP fun v => decide (v = u) :=
    List.countP_pos_iff.2 ⟨u, hu, decide_eq_true rfl⟩
  refine or_iff_not_imp_left.2 fun hnew => ?_
  have hzero : (c.mesh.triangles.countP fun v => decide (v = u)) = 0 :=
    List.countP_eq_zero.2 fun v hv heq => hnew (of_decide_eq_true heq ▸ hv)
  have hback : (!both && decide (t.pullTo p s = u)) = true := by
    by_contra hno
    rw [hzero, if_neg hno] at hcount
    omega
  rw [Bool.and_eq_true, Bool.not_eq_true', decide_eq_true_eq] at hback
  exact ⟨hback.1, hback.2.symm⟩

theorem keyed_visitTo (ht : c.mesh.get? id = some t) (hend : t.atEnd s = true)
    (h : c.waiting.Keyed) : (c.visitTo p s id both).waiting.Keyed := by
  have hstruck := EdgeSet.Each.withoutTouching h s t
  cases both with
  | true =>
    rw [waiting_visitTo_true ht]
    exact hstruck
  | false =>
    obtain ⟨place, hplace⟩ := Triangle.exists_place_of_atEnd hend
    rw [waiting_visitTo_false ht hplace]
    exact hstruck.insertAll _ fun _ _ => rfl

/-- **A visit keeps the sides covered** that are away from the old ends. -/
theorem coversAway_visitTo (ht : c.mesh.get? id = some t) (hend : t.atEnd s = true)
    (h : c.waiting.CoversAway s c.mesh.triangles) :
    (c.visitTo p s id both).waiting.CoversAway s (c.visitTo p s id both).mesh.triangles := by
  intro u hu e he haway
  have hkept {u : Triangle K} (hu : u ∈ c.mesh.triangles) {f : Segment K} (hf : f ∈ u.segments)
      (hkey : f.key = e.key) : e.key ∈ c.waiting.withoutTouching s t := by
    rw [← Segment.touches_congr hkey] at haway
    exact hkey ▸ EdgeSet.mem_withoutTouching_of_away t (h u hu f hf haway) haway
  have hmem := mem_triangles_visitTo ht hend hu
  cases both with
  | true =>
    rw [waiting_visitTo_true ht]
    exact hkept (hmem.resolve_right fun hfalse => Bool.noConfusion hfalse.1) he rfl
  | false =>
    obtain ⟨place, hplace⟩ := Triangle.exists_place_of_atEnd hend
    rw [waiting_visitTo_false ht hplace, EdgeSet.mem_insertAll]
    rcases hmem with hold | ⟨-, rfl⟩
    · exact .inl (hkept hold he rfl)
    · rw [Triangle.pullTo, hplace] at he
      rcases Triangle.key_of_mem_segments_replace he with hnew | ⟨f, hf, hkey⟩
      · exact .inr hnew
      · exact .inl (hkept (Mesh.mem_triangles_iff.2 ⟨id, ht⟩) hf hkey)

end Collapsing

/-- A whole collapse does so too. -/
theorem Mesh.Coherent.coversAway_collapseTo {m : Mesh K} {s : Segment K} {waiting : EdgeSet K}
    (h : m.Coherent) (hkeyed : waiting.Keyed) (hcovers : waiting.Covers m.triangles) (p : Vec3 K) :
    (m.collapseTo p s waiting).waiting.Keyed ∧
      (m.collapseTo p s waiting).waiting.CoversAway s
        (m.collapseTo p s waiting).mesh.triangles := by
  refine Collapsing.foldl_induction (c := ⟨m, waiting, []⟩)
    (C := fun c => c.waiting.Keyed ∧ c.waiting.CoversAway s c.mesh.triangles)
    (Q := fun t _ => t.atEnd s = true) (m.visits s) (h.nodup_visits s) (fun e he => ?_)
    (fun c id both t ht hend hc =>
      ⟨Collapsing.keyed_visitTo ht hend hc.1, Collapsing.coversAway_visitTo ht hend hc.2⟩)
    ⟨hkeyed, fun t ht e he _ => hcovers t ht e he⟩
  obtain ⟨t, ht, hend, -⟩ := h.mem_visits.1 he
  exact ⟨t, ht, hend, hend⟩

end Visits

variable {K : Type} [Field K] [LinearOrder K] [IsStrictOrderedRing K] [FloorRing K] [SquareRoot K]

/-- No triangle is left at the old ends. -/
theorem Mesh.Collapsible.atEnd_eq_false {m : Mesh K} {s : Segment K} {waiting : EdgeSet K}
    (h : m.Collapsible s) :
    ∀ t ∈ (m.collapse s waiting).mesh.triangles, t.atEnd s = false := by
  intro t ht
  have hnone {p : Vec3 K} (hp : p = s.lo ∨ p = s.hi) : t.hasCorner p.key = false := by
    have hzero : edgeCount (m.collapse s waiting).mesh.triangles p p = 0 := h.edgeCount_end hp p
    have hnot := List.countP_eq_zero.1 hzero t ht
    rwa [Bool.and_self, Bool.not_eq_true] at hnot
  rw [Triangle.atEnd, hnone (.inl rfl), hnone (.inr rfl), Bool.or_self]

namespace Simplifying

variable {w : Simplifying K} {s : Segment K}

/-- What holds throughout a simplification of triangles with areas: the edges that wait are the edges of the
mesh. -/
structure Exhaustive (w : Simplifying K) : Prop where
  attached : w.Attached
  hasArea : ∀ t ∈ w.mesh.triangles, t.hasArea = true
  keyed : w.waiting.Keyed
  covers : w.waiting.Covers w.mesh.triangles

theorem exhaustive_start {m : Mesh K} (harea : ∀ t ∈ m.triangles, t.hasArea = true) :
    (start m).Exhaustive where
  attached := attached_start m
  hasArea := (triangles_start m).symm ▸ harea
  keyed := EdgeSet.Each.insertAll (fun k e he => by simp at he) m.edges fun _ _ => rfl
  covers := by
    intro t ht e he
    rw [triangles_start] at ht
    exact EdgeSet.mem_insertAll.2 (.inr (Mesh.exists_mem_edges ht he))

theorem Exhaustive.collapse (h : w.Exhaustive) (asked : Nat) (rest : List (Segment K))
    (hs : s.key ∈ w.waiting) (hcan : w.mesh.canCollapse s = true) :
    (w.collapse asked s rest).Exhaustive := by
  have hcollapsible := h.attached.collapsible h.hasArea hs hcan
  obtain ⟨hkeyed, hcovers⟩ :=
    h.attached.coherent.coversAway_collapseTo (s := s) h.keyed h.covers s.mid
  exact {
    attached := h.attached.collapse hcollapsible.key_ne asked rest
    hasArea := hcollapsible.hasArea_collapse
    keyed := hkeyed
    covers := fun t ht e he =>
      hcovers t ht e he (Triangle.touches_eq_false (hcollapsible.atEnd_eq_false t ht) he) }

/-- **The edges that wait are the edges of the mesh.** -/
theorem Exhaustive.mem_values_iff (h : w.Exhaustive) :
    s ∈ w.waiting.values ↔ s ∈ w.mesh.edges := by
  rw [EdgeSet.mem_values_iff]
  constructor
  · rintro ⟨k, hk⟩
    have hwaits : s.key ∈ w.waiting := by
      rw [h.keyed k s hk, Std.TreeMap.mem_iff_isSome_getElem?, hk]
      rfl
    obtain ⟨e, he, hkey⟩ := List.mem_map.1 (Mesh.attached_iff.1 h.attached.waiting s.key hwaits)
    exact Segment.key_inj.1 hkey ▸ he
  · intro hs
    obtain ⟨t, ht, hst⟩ := Mesh.exists_of_mem_edges hs
    have hwaits := h.covers t ht s hst
    rw [Std.TreeMap.mem_iff_isSome_getElem?, Option.isSome_iff_exists] at hwaits
    obtain ⟨e, he⟩ := hwaits
    exact ⟨s.key, Segment.key_inj.1 (h.keyed s.key e he) ▸ he⟩

end Simplifying

/-- **Simplification reaches a fixpoint.** On triangles with areas the edges that wait are those of the
mesh, at the start and after each collapse. The run returns under every approval, with a mesh of which no
edge can be collapsed and is approved. -/
theorem Mesh.simplify_reaches_fixpoint {m : Mesh K} (harea : ∀ t ∈ m.triangles, t.hasArea = true)
    (approve : Approval K) :
    (∀ steps, ∀ w ∈ (Simplifying.start m).states approve steps,
      ∀ s, s ∈ w.waiting.values ↔ s ∈ w.mesh.edges) ∧
    ∃ done, m.simplify approve = some done ∧
      ∀ s ∈ done.mesh.edges, ¬(done.mesh.canCollapse s = true ∧ approve done.mesh s = true) := by
  have hstart := Simplifying.exhaustive_start harea
  constructor
  · intro steps w hw s
    have hexhaustive := Simplifying.forall_mem_states Simplifying.Exhaustive
      (fun w asked s rest hw hs hcan _ => hw.collapse asked rest hs hcan) hstart steps w hw
    exact hexhaustive.mem_values_iff
  · obtain ⟨done, v, hv, hlast, hrun⟩ := Simplifying.exists_runBy (.ofApproval approve)
      Simplifying.Exhaustive (fun w asked s rest hw hs hcan _ =>
        ⟨hw.collapse asked rest hs hcan, hw.attached.triangleCount_collapse_lt hs asked rest⟩) hstart
    refine ⟨done, ?_, fun s hs ⟨hcan, happroved⟩ => ?_⟩
    · rw [simplify, Simplifying.run_eq_runBy]
      exact hrun m.stepLimit m.triangleCount_start_lt_stepLimit
    · rw [(Simplifying.of_stepBy_eq_finished hlast).1] at hs hcan happroved
      obtain ⟨t, ht, hst⟩ := exists_of_mem_edges hs
      obtain ⟨_, hrefused⟩ := Simplifying.refused_of_stepBy_eq_finished hlast s
        (hv.mem_values_iff.2 hs) (hv.covers t ht s hst) hcan
      exact Bool.noConfusion (happroved.symm.trans hrefused)

/-- Approves every edge. -/
def everyEdge : Approval ℚ := fun _ _ => true

/-- The edges that wait, after a midpoint has landed on another vertex; and the mesh in which nothing can be
collapsed any more. -/
theorem octahedron_and_tetrahedron_reach_fixpoint :
    (∀ t ∈ octahedron ++ tetrahedron, t.hasArea = true) ∧
      (∃ w ∈ (Simplifying.start (.ofTriangles (octahedron ++ tetrahedron))).states onEdge 1,
        w.mesh.needsRepair = true ∧ ∀ s, s ∈ w.waiting.values ↔ s ∈ w.mesh.edges) ∧
      ∃ done, (Mesh.ofTriangles (octahedron ++ tetrahedron)).simplify everyEdge = some done ∧
        done.mesh.triangleCount = 8 ∧ ∀ s ∈ done.mesh.edges, done.mesh.canCollapse s = false := by
  have harea : ∀ t ∈ octahedron ++ tetrahedron, t.hasArea = true := by decide +kernel
  have htriangles := Mesh.triangles_ofTriangles (octahedron ++ tetrahedron)
  have hfixpoint := Mesh.simplify_reaches_fixpoint (m := .ofTriangles (octahedron ++ tetrahedron))
    (htriangles.symm ▸ harea)
  have hbroken : ((Simplifying.start (.ofTriangles (octahedron ++ tetrahedron))).states onEdge 1).any
      (·.mesh.needsRepair) = true := by decide +kernel
  obtain ⟨w, hw, hbroken⟩ := List.any_eq_true.1 hbroken
  obtain ⟨-, done, hrun, hdone⟩ := hfixpoint everyEdge
  have hcount : ((Mesh.ofTriangles (octahedron ++ tetrahedron)).simplify everyEdge).map
      (·.mesh.triangleCount) = some 8 := by decide +kernel
  rw [hrun] at hcount
  refine ⟨harea, ⟨w, hw, hbroken, (hfixpoint onEdge).1 1 w hw⟩, done, hrun, Option.some.inj hcount,
    fun s hs => Bool.not_eq_true _ ▸ fun hcan => hdone s hs ⟨hcan, rfl⟩⟩

end Isomesh
