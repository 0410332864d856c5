import Mathlib
import Isomesh.Proofs.PulledTriangles

/-!
# When a collapse keeps a mesh manifold

An edge between two points that are away from the collapsed edge keeps its triangles, and an edge at an
old end loses all of them. What decides is the edges at the midpoint. Such an edge gets the triangles of
the two edges that fall together, and there are two of them because of the vertices next to both ends.
But it may be on the surface already, if the midpoint happens to be a vertex of another part. Then it
ends up with four triangles.

* `Mesh.landsClear`: that this does not happen.
* `Mesh.Collapsible.edgeCount_mid`: the triangles along an edge at the midpoint.
* `Mesh.Collapsible.needsRepair_collapse_iff`: a collapse keeps a mesh manifold just when it lands clear.
-/

set_option autoImplicit false

namespace Isomesh

/-! ## Counting triangles -/

/-- A triangle has three corners. -/
theorem Triangle.exists_notMem_corners {K : Type} (t : Triangle K) (ps : List (Vec3 K))
    (hnodup : ps.Nodup) (hlength : 3 < ps.length) : ∃ p ∈ ps, p ∉ t.corners := by
  by_contra hall
  push Not at hall
  have hsub : ps ⊆ t.corners := fun p hp => hall p hp
  have hle : ps.length ≤ 3 := (List.subperm_of_subset hnodup hsub).length_le
  omega

section Definitions

variable {K : Type} [Scalar K]

/-- The number of triangles along the edge between two points. -/
def edgeCount (ts : List (Triangle K)) (p q : Vec3 K) : Nat :=
  ts.countP fun t => t.hasCorner p.key && t.hasCorner q.key

/-- The number of triangles with a given corner that a collapse pulls to the midpoint. -/
def pulledAt (s : Segment K) (ts : List (Triangle K)) (x : Vec3 K) : Nat :=
  ts.countP fun t => t.atOne s && t.hasCorner x.key

/-- Whether no triangle at the midpoint of an edge shares a vertex with a triangle that a collapse of
the edge pulls there. -/
def Mesh.landsClear (m : Mesh K) (s : Segment K) : Bool :=
  !m.triangles.any fun t => t.hasCorner s.mid.key &&
    m.triangles.any fun u => u.atOne s && t.keys.any u.hasCorner

theorem edgeCount_comm (ts : List (Triangle K)) (p q : Vec3 K) :
    edgeCount ts p q = edgeCount ts q p := by
  simp only [edgeCount, Bool.and_comm]

/-- The triangles at an end with a given corner, counted once at each end. -/
theorem pulledAt_add (s : Segment K) (ts : List (Triangle K)) (x : Vec3 K) :
    pulledAt s ts x + 2 * ts.countP (fun t => t.atBoth s && t.hasCorner x.key) =
      edgeCount ts s.lo x + edgeCount ts s.hi x := by
  induction ts with
  | nil => rfl
  | cons t ts ih =>
    have hone : ∀ a b c : Bool, (if (a || b) && !(a && b) && c then 1 else 0) +
        2 * (if a && b && c then 1 else 0) = (if a && c then 1 else 0) + if b && c then 1 else 0 := by
      decide
    have ht := hone (t.hasCorner s.lo.key) (t.hasCorner s.hi.key) (t.hasCorner x.key)
    simp only [pulledAt, edgeCount, List.countP_cons, Triangle.atOne, Triangle.atEnd,
      Triangle.atBoth] at ih ⊢
    omega

end Definitions

variable {K : Type} [Field K] [LinearOrder K] [IsStrictOrderedRing K] [FloorRing K] [SquareRoot K]

theorem edgeCount_pos_iff {ts : List (Triangle K)} {p q : Vec3 K} :
    0 < edgeCount ts p q ↔ ∃ t ∈ ts, p ∈ t.corners ∧ q ∈ t.corners := by
  simp only [edgeCount, List.countP_pos_iff, Bool.and_eq_true, Triangle.hasCorner_iff]

theorem pulledAt_pos_iff {s : Segment K} {ts : List (Triangle K)} {x : Vec3 K} :
    0 < pulledAt s ts x ↔ ∃ t ∈ ts, t.atOne s = true ∧ x ∈ t.corners := by
  simp only [pulledAt, List.countP_pos_iff, Bool.and_eq_true, Triangle.hasCorner_iff]

namespace Mesh

variable {m : Mesh K} {s : Segment K} {waiting : EdgeSet K}

/-- A mesh of triangles with areas needs no repair when no edge has a number of triangles other than
zero and two. -/
theorem Coherent.needsRepair_eq_false_iff_edgeCount (h : m.Coherent)
    (harea : ∀ t ∈ m.triangles, t.hasArea = true) :
    m.needsRepair = false ↔
      ∀ p q, p ≠ q → edgeCount m.triangles p q = 0 ∨ edgeCount m.triangles p q = 2 := by
  rw [h.needsRepair_eq_false_iff]
  constructor
  · intro hsides p q hpq
    rcases Nat.eq_zero_or_pos (edgeCount m.triangles p q) with hzero | hpos
    · exact .inl hzero
    · obtain ⟨t, ht, hcorners⟩ := edgeCount_pos_iff.1 hpos
      rcases (t.mem_corners_iff hpq).1 hcorners with hside | hside
      · exact .inr (hsides t ht _ hside)
      · rw [edgeCount_comm]
        exact .inr (hsides t ht _ hside)
  · intro hcount t ht e he
    have hne := Triangle.ne_of_mem_sides (harea t ht) he
    have hpos := edgeCount_pos_iff.2 ⟨t, ht, (t.mem_corners_iff hne).2 (.inl he)⟩
    exact (hcount e.1 e.2 hne).resolve_left hpos.ne'

/-- A mesh and an edge that passes the test before a collapse. -/
structure Collapsible (m : Mesh K) (s : Segment K) : Prop where
  coherent : m.Coherent
  hasArea : ∀ t ∈ m.triangles, t.hasArea = true
  ne : s.lo ≠ s.hi
  canCollapse : m.canCollapse s = true

namespace Collapsible

theorem key_ne (h : m.Collapsible s) : s.lo.key ≠ s.hi.key := fun hkey => h.ne (Exact.key_inj.1 hkey)

theorem hasArea_pull (h : m.Collapsible s) {t : Triangle K} (ht : t ∈ m.triangles)
    (hone : t.atOne s = true) : (t.pull s).hasArea = true :=
  h.coherent.hasArea_pull h.canCollapse ht (h.hasArea t ht) hone

theorem mid_notMem_corners (h : m.Collapsible s) {t : Triangle K} (ht : t ∈ m.triangles)
    (hend : t.atEnd s = true) : s.mid ∉ t.corners :=
  Triangle.mid_notMem_corners h.ne (h.hasArea t ht) hend (h.hasArea_pull ht)

/-- No triangle loses its area. -/
theorem hasArea_collapse (h : m.Collapsible s) :
    ∀ t ∈ (m.collapse s waiting).mesh.triangles, t.hasArea = true := by
  have hnone : (m.collapse s waiting).mesh.triangles.countP (fun t => !t.hasArea) = 0 := by
    rw [h.coherent.countP_collapse, Nat.add_eq_zero_iff, List.countP_eq_zero, List.countP_eq_zero]
    refine ⟨fun t ht => ?_, fun t ht => ?_⟩
    · simp [h.hasArea t ht]
    · intro hpulled
      simp only [Bool.and_eq_true, Bool.not_eq_true'] at hpulled
      obtain ⟨hend, hboth, hnot⟩ := hpulled
      have hone : t.atOne s = true := by simp [Triangle.atOne, hend, hboth]
      rw [h.hasArea_pull ht hone] at hnot
      cases hnot
  intro t ht
  simpa using List.countP_eq_zero.1 hnone t ht

/-! ## Edges after a collapse -/

theorem edgeCount_collapse (h : m.Collapsible s) (p q : Vec3 K) :
    edgeCount (m.collapse s waiting).mesh.triangles p q =
      m.triangles.countP (fun t => !t.atEnd s && (t.hasCorner p.key && t.hasCorner q.key)) +
        m.triangles.countP fun t =>
          t.atOne s && ((t.pull s).hasCorner p.key && (t.pull s).hasCorner q.key) := by
  simp only [edgeCount, h.coherent.countP_collapse, Triangle.atOne, Bool.and_assoc]

/-- The old ends have left the mesh. -/
theorem edgeCount_end (h : m.Collapsible s) {p : Vec3 K} (hp : p = s.lo ∨ p = s.hi) (q : Vec3 K) :
    edgeCount (m.collapse s waiting).mesh.triangles p q = 0 := by
  rw [h.edgeCount_collapse, Nat.add_eq_zero_iff, List.countP_eq_zero, List.countP_eq_zero]
  refine ⟨fun t _ hstay => ?_, fun t ht hpulled => ?_⟩
  · simp only [Bool.and_eq_true, Bool.not_eq_true', Triangle.hasCorner_iff] at hstay
    have hend : t.atEnd s = true := by
      rw [Triangle.atEnd_iff]
      rcases hp with rfl | rfl
      · exact .inl hstay.2.1
      · exact .inr hstay.2.1
    rw [hstay.1] at hend
    cases hend
  · simp only [Bool.and_eq_true, Triangle.hasCorner_iff] at hpulled
    obtain ⟨hone, hpull, -⟩ := hpulled
    rw [Triangle.mem_corners_pull (h.hasArea t ht) hone] at hpull
    rcases hp with rfl | rfl
    · exact hpull.elim (Vec3.midpoint_ne_left h.ne).symm fun hpull => hpull.2.1 rfl
    · exact hpull.elim (Vec3.midpoint_ne_right h.ne).symm fun hpull => hpull.2.2 rfl

/-- Away from the ends and the midpoint nothing changes. -/
theorem edgeCount_away (h : m.Collapsible s) {p q : Vec3 K} (hpq : p ≠ q)
    (hp : p ∉ [s.lo, s.hi, s.mid]) (hq : q ∉ [s.lo, s.hi, s.mid]) :
    edgeCount (m.collapse s waiting).mesh.triangles p q = edgeCount m.triangles p q := by
  rw [h.edgeCount_collapse, eq_comm]
  refine countP_eq_add fun t ht => ?_
  simp only [List.mem_cons, List.not_mem_nil, or_false, not_or] at hp hq
  -- a triangle at both ends has no room for two more corners
  have hroom : t.atBoth s = true → ¬(p ∈ t.corners ∧ q ∈ t.corners) := by
    rintro hboth ⟨hpt, hqt⟩
    obtain ⟨hlo, hhi⟩ := Triangle.atBoth_iff.1 hboth
    obtain ⟨x, hx, hxt⟩ := t.exists_notMem_corners [s.lo, s.hi, p, q]
      (by simp [h.ne, hpq, Ne.symm hp.1, Ne.symm hp.2.1, Ne.symm hq.1, Ne.symm hq.2.1]) (by simp)
    simp only [List.mem_cons, List.not_mem_nil, or_false] at hx
    rcases hx with rfl | rfl | rfl | rfl <;> contradiction
  have hpull : t.atOne s = true → ∀ x, x ∉ [s.lo, s.hi, s.mid] →
      (x ∈ (t.pull s).corners ↔ x ∈ t.corners) := by
    intro hone x hx
    rw [Triangle.mem_corners_pull (h.hasArea t ht) hone]
    simp only [List.mem_cons, List.not_mem_nil, or_false, not_or] at hx
    tauto
  simp only [Bool.and_eq_true, Bool.not_eq_true', Triangle.hasCorner_iff]
  cases hend : t.atEnd s with
  | false => simp [Triangle.atOne, hend]
  | true =>
    cases hboth : t.atBoth s with
    | false =>
      have hone : t.atOne s = true := by simp [Triangle.atOne, hend, hboth]
      rw [hpull hone p (by simp [hp]), hpull hone q (by simp [hq])]
      simp [hone]
    | true => simpa [Triangle.atOne, hboth] using hroom hboth

/-- An edge at the midpoint keeps its triangles and gets those that are pulled there. -/
theorem edgeCount_mid (h : m.Collapsible s) {x : Vec3 K} (hx : x ∉ [s.lo, s.hi, s.mid]) :
    edgeCount (m.collapse s waiting).mesh.triangles s.mid x =
      edgeCount m.triangles s.mid x + pulledAt s m.triangles x := by
  simp only [List.mem_cons, List.not_mem_nil, or_false, not_or] at hx
  rw [h.edgeCount_collapse]
  congr 1
  · refine List.countP_congr fun t ht => ?_
    simp only [Bool.and_eq_true, Bool.not_eq_true', Triangle.hasCorner_iff]
    refine ⟨And.right, fun hmid => ⟨?_, hmid⟩⟩
    rw [← Bool.not_eq_true]
    exact fun hend => h.mid_notMem_corners ht hend hmid.1
  · refine List.countP_congr fun t ht => ?_
    simp only [Bool.and_eq_true, Triangle.hasCorner_iff]
    refine and_congr_right fun hone => ?_
    rw [Triangle.mem_corners_pull (h.hasArea t ht) hone,
      Triangle.mem_corners_pull (h.hasArea t ht) hone]
    tauto

/-! ## Landing clear -/

theorem exists_of_next_to_both (h : m.Collapsible s) {x : Vec3 K} (hlo : x ≠ s.lo) (hhi : x ≠ s.hi)
    (hatLo : 0 < edgeCount m.triangles s.lo x) (hatHi : 0 < edgeCount m.triangles s.hi x) :
    0 < m.triangles.countP fun t => t.atBoth s && t.hasCorner x.key := by
  have hlinks := (h.coherent.canCollapse_iff.1 h.canCollapse).1
  simp only [edgeCount, List.countP_pos_iff, Bool.and_eq_true] at hatLo hatHi
  have haway : s.hasEnd x.key = false := by
    simp [Segment.hasEnd, Exact.key_inj, Ne.symm hlo, Ne.symm hhi]
  obtain ⟨t, ht, hends⟩ := hlinks x.key haway hatLo hatHi
  exact List.countP_pos_iff.2 ⟨t, ht, (Bool.and_eq_true ..).mpr hends⟩

/-- An end of a collapsed edge and a vertex that is pulled to the midpoint: none or two triangles. -/
theorem pulledAt_eq (h : m.Collapsible s) (hm : m.needsRepair = false) {x : Vec3 K}
    (hx : x ∉ [s.lo, s.hi, s.mid]) :
    pulledAt s m.triangles x = 0 ∨ pulledAt s m.triangles x = 2 := by
  simp only [List.mem_cons, List.not_mem_nil, or_false, not_or] at hx
  have hcount := (h.coherent.needsRepair_eq_false_iff_edgeCount h.hasArea).1 hm
  have hlo := hcount s.lo x (Ne.symm hx.1)
  have hhi := hcount s.hi x (Ne.symm hx.2.1)
  have hadd := pulledAt_add s m.triangles x
  have hboth := h.exists_of_next_to_both hx.1 hx.2.1
  have hle : m.triangles.countP (fun t => t.atBoth s && t.hasCorner x.key) ≤
      edgeCount m.triangles s.lo x := by
    refine List.countP_mono_left fun t _ ht => ?_
    simp only [Triangle.atBoth, Bool.and_eq_true] at ht ⊢
    exact ⟨ht.1.1, ht.2⟩
  have hle' : m.triangles.countP (fun t => t.atBoth s && t.hasCorner x.key) ≤
      edgeCount m.triangles s.hi x := by
    refine List.countP_mono_left fun t _ ht => ?_
    simp only [Triangle.atBoth, Bool.and_eq_true] at ht ⊢
    exact ⟨ht.1.2, ht.2⟩
  omega

theorem landsClear_iff (h : m.Collapsible s) :
    m.landsClear s = true ↔ ∀ x, x ∉ [s.lo, s.hi, s.mid] →
      edgeCount m.triangles s.mid x = 0 ∨ pulledAt s m.triangles x = 0 := by
  simp only [landsClear, Bool.not_eq_true', List.any_eq_false, Bool.and_eq_true, List.any_eq_true,
    Triangle.hasCorner_iff]
  constructor
  · intro hclear x hx
    by_contra hboth
    rw [not_or] at hboth
    obtain ⟨t, ht, hmid, hxt⟩ := edgeCount_pos_iff.1 (Nat.pos_of_ne_zero hboth.1)
    obtain ⟨u, hu, hone, hxu⟩ := pulledAt_pos_iff.1 (Nat.pos_of_ne_zero hboth.2)
    exact hclear t ht ⟨hmid, u, hu, hone, x.key, List.mem_map_of_mem hxt,
      Triangle.hasCorner_iff.2 hxu⟩
  · rintro hclear t ht ⟨hmid, u, hu, hone, k, hkt, hku⟩
    obtain ⟨x, hxt, rfl⟩ := List.mem_map.1 hkt
    have hxu := Triangle.hasCorner_iff.1 hku
    have hend : u.atEnd s = true := (Bool.and_eq_true .. ▸ hone : _ ∧ _).1
    -- the common vertex is neither the midpoint nor an end
    have hx : x ∉ [s.lo, s.hi, s.mid] := by
      have haway : ¬t.atEnd s = true := fun hend => h.mid_notMem_corners ht hend hmid
      rw [Triangle.atEnd_iff, not_or] at haway
      simp only [List.mem_cons, List.not_mem_nil, or_false, not_or]
      refine ⟨?_, ?_, ?_⟩ <;> rintro rfl
      · exact haway.1 hxt
      · exact haway.2 hxt
      · exact h.mid_notMem_corners hu hend hxu
    rcases hclear x hx with hzero | hzero
    · exact (edgeCount_pos_iff.2 ⟨t, ht, hmid, hxt⟩).ne' hzero
    · exact (pulledAt_pos_iff.2 ⟨u, hu, hone, hxu⟩).ne' hzero

theorem mid_ne {x : Vec3 K} (hx : x ∉ [s.lo, s.hi, s.mid]) : s.mid ≠ x := by
  rintro rfl
  simp at hx

/-- An edge at the midpoint ends up with four triangles if it had two and gets two. -/
theorem edgeCount_mid_iff (h : m.Collapsible s) (hm : m.needsRepair = false) {x : Vec3 K}
    (hx : x ∉ [s.lo, s.hi, s.mid]) :
    edgeCount (m.collapse s waiting).mesh.triangles s.mid x = 0 ∨
        edgeCount (m.collapse s waiting).mesh.triangles s.mid x = 2 ↔
      edgeCount m.triangles s.mid x = 0 ∨ pulledAt s m.triangles x = 0 := by
  have hcount := (h.coherent.needsRepair_eq_false_iff_edgeCount h.hasArea).1 hm
  have hold := hcount s.mid x (mid_ne hx)
  have hpulled := h.pulledAt_eq hm hx
  rw [h.edgeCount_mid hx]
  omega

/-- **A collapse keeps a mesh manifold just when it lands clear.** -/
theorem needsRepair_collapse_iff (h : m.Collapsible s) (hm : m.needsRepair = false) :
    (m.collapse s waiting).mesh.needsRepair = false ↔ m.landsClear s = true := by
  rw [(h.coherent.collapse s waiting).needsRepair_eq_false_iff_edgeCount h.hasArea_collapse,
    h.landsClear_iff]
  constructor
  · exact fun hafter x hx => (h.edgeCount_mid_iff hm hx).1 (hafter s.mid x (mid_ne hx))
  · intro hclear p q hpq
    by_cases hp : p = s.lo ∨ p = s.hi
    · exact .inl (h.edgeCount_end hp q)
    by_cases hq : q = s.lo ∨ q = s.hi
    · rw [edgeCount_comm]
      exact .inl (h.edgeCount_end hq p)
    rw [not_or] at hp hq
    by_cases hpm : p = s.mid
    · subst hpm
      have hx : q ∉ [s.lo, s.hi, s.mid] := by simp [hq, hpq.symm]
      exact (h.edgeCount_mid_iff hm hx).2 (hclear q hx)
    by_cases hqm : q = s.mid
    · subst hqm
      have hx : p ∉ [s.lo, s.hi, s.mid] := by simp [hp, hpq]
      rw [edgeCount_comm]
      exact (h.edgeCount_mid_iff hm hx).2 (hclear p hx)
    rw [h.edgeCount_away hpq (by simp [hp, hpm]) (by simp [hq, hqm])]
    exact (h.coherent.needsRepair_eq_false_iff_edgeCount h.hasArea).1 hm p q hpq

end Collapsible

end Mesh

end Isomesh
