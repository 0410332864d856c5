import Mathlib
import Isomesh.Proofs.BisectedRange
import Isomesh.Proofs.ClosedSurface
import Isomesh.Proofs.MeshIndex

/-!
# Refined vertices

Refinement moves a vertex along the lattice edge it is the middle of, and not as far as an end of it.
From the new place one can still tell the edge: along one axis the coordinate is between two
lattice points, along the others it is that of a lattice point. So vertices that were apart stay apart.

* `Lattice.OnEdge`: where a vertex may be moved.
* `Lattice.OnEdge.unique`: a place belongs to one edge only.
* `Lattice.onEdge_refineVertex`: refinement keeps a vertex on its edge.
* `refine_eq_ok`: what a refined mesh consists of.
-/

set_option autoImplicit false

namespace Isomesh

/-- What a table of answers consists of, if all questions have one. -/
theorem table_of_mapM {α κ β ε : Type} {key : α → κ} {ask : α → Except ε β} {as : List α}
    {table : List (κ × β)} (h : (as.mapM fun a => do return (key a, ← ask a)) = .ok table) :
    table.map Prod.fst = as.map key ∧ ∀ a ∈ as, ∃ b, ask a = .ok b ∧ (key a, b) ∈ table := by
  induction as generalizing table with
  | nil =>
    cases h
    exact ⟨rfl, by simp⟩
  | cons a as ih =>
    rw [List.mapM_cons] at h
    obtain ⟨entry, hentry, h⟩ := exists_of_bind_eq_ok h
    obtain ⟨b, hb, hentry⟩ := exists_of_bind_eq_ok hentry
    cases hentry
    obtain ⟨rest, hrest, h⟩ := exists_of_bind_eq_ok h
    cases h
    obtain ⟨hkeys, hmem⟩ := ih hrest
    refine ⟨congrArg (key a :: ·) hkeys, fun c hc => ?_⟩
    rcases List.mem_cons.1 hc with rfl | hc
    · exact ⟨b, hb, List.mem_cons_self⟩
    · obtain ⟨d, hd, hmem⟩ := hmem c hc
      exact ⟨d, hd, List.mem_cons_of_mem _ hmem⟩

/-- If all questions have an answer, there is a table of the answers. -/
theorem exists_mapM_eq_ok {α κ β ε : Type} {key : α → κ} {ask : α → Except ε β} {as : List α}
    (h : ∀ a ∈ as, ∃ b, ask a = .ok b) :
    ∃ table, (as.mapM fun a => do return (key a, ← ask a)) = .ok table := by
  induction as with
  | nil => exact ⟨[], rfl⟩
  | cons a as ih =>
    obtain ⟨⟨b, hb⟩, hrest⟩ := List.forall_mem_cons.1 h
    obtain ⟨rest, hrest⟩ := ih hrest
    refine ⟨(key a, b) :: rest, ?_⟩
    rw [List.mapM_cons, hb, hrest]
    rfl

variable {K : Type} [Field K] [LinearOrder K] [IsStrictOrderedRing K] [FloorRing K] [SquareRoot K]

/-! ## Places on lattice edges -/

namespace Lattice

variable {l : Lattice K} {solid : Solid K} {g h : Vec3 Nat} {p : Vec3 K}

/-- Whether a point is on the lattice edge with the middle `h` and not at an end of it. An odd
coordinate of the middle is one between two lattice points. -/
def OnEdge (l : Lattice K) (h : Vec3 Nat) (p : Vec3 K) : Prop :=
  ∀ axis, if h.get axis % 2 = 1 then |p.get axis - (l.halfPoint h).get axis| < l.delta * 0.5
    else p.get axis = (l.halfPoint h).get axis

/-- A point belongs to one edge only. -/
theorem OnEdge.unique (hd : 0 < l.delta) (hg : l.OnEdge g p) (hh : l.OnEdge h p) : g = h := by
  have hhalf : 0 < l.delta / 2 := half_pos hd
  have below {m n d : Nat} (hlt : (m : K) * (l.delta / 2) < (n + d) * (l.delta / 2)) : m < n + d := by
    have := lt_of_mul_lt_mul_right hlt hhalf.le
    exact_mod_cast this
  refine Vec3.ext_get fun axis => ?_
  have h1 := hg axis
  have h2 := hh axis
  simp only [halfPoint, Vec3.get_ofFn, mul_half_eq] at h1 h2
  split at h1 <;> split at h2
  · rw [abs_lt] at h1 h2
    have hlt : g.get axis < h.get axis + 2 := below (by push_cast; linarith)
    have hgt : h.get axis < g.get axis + 2 := below (by push_cast; linarith)
    omega
  · rw [h2, abs_lt] at h1
    have hlt : g.get axis < h.get axis + 1 := below (by push_cast; linarith)
    have hgt : h.get axis < g.get axis + 1 := below (by push_cast; linarith)
    omega
  · rw [h1, abs_lt] at h2
    have hlt : g.get axis < h.get axis + 1 := below (by push_cast; linarith)
    have hgt : h.get axis < g.get axis + 1 := below (by push_cast; linarith)
    omega
  · have heq : (g.get axis : K) = h.get axis :=
      mul_right_cancel₀ hhalf.ne' (add_left_cancel (h1.symm.trans h2))
    exact_mod_cast heq

/-- How far the middle of a lattice edge is past a lattice point. -/
theorem offset_halfPoint (hd : 0 < l.delta) (h : Vec3 Nat) (axis : Axis) :
    l.offset axis ((l.halfPoint h).get axis) = (h.get axis % 2 : Nat) * (l.delta / 2) := by
  have hhalf : 0 < l.delta / 2 := half_pos hd
  have hsplit : (h.get axis : K) = 2 * (h.get axis / 2 : Nat) + (h.get axis % 2 : Nat) := by
    exact_mod_cast (Nat.div_add_mod (h.get axis) 2).symm
  have hpast : (l.halfPoint h).get axis - l.origin.get axis =
      (h.get axis / 2 : Nat) * l.delta + (h.get axis % 2 : Nat) * (l.delta / 2) := by
    rw [halfPoint, Vec3.get_ofFn, mul_half_eq, hsplit]
    ring
  show Exact.rem ((l.halfPoint h).get axis - l.origin.get axis) l.delta = _
  rw [hpast]
  rcases Nat.mod_two_eq_zero_or_one (h.get axis) with hm | hm <;> rw [hm]
  · exact Exact.rem_eq_of_lt _ (by simp) (by simpa using hd)
  · exact Exact.rem_eq_of_lt _ (by simpa using hhalf.le) (by
      rw [Nat.cast_one, one_mul]
      exact half_lt_self hd)

/-- The middle of a lattice edge is between two lattice points where its coordinate is odd. -/
theorem odd_of_isBetween (hd : 0 < l.delta) {axis : Axis}
    (h' : l.isBetween axis ((l.halfPoint h).get axis) = true) : h.get axis % 2 = 1 := by
  rw [isBetween, offset_halfPoint hd, Bool.and_eq_true, decide_eq_true_eq] at h'
  rcases Nat.mod_two_eq_zero_or_one (h.get axis) with hm | hm
  · obtain ⟨hlt, -⟩ := h'
    rw [hm, Nat.cast_zero, zero_mul] at hlt
    norm_num at hlt
    exact absurd hlt (by linarith)
  · exact hm

/-- **Refinement keeps a vertex on its edge.** -/
theorem onEdge_refineVertex (hd : 0 < l.delta) {steps : Nat} {normal q : Vec3 K}
    (hq : l.refineVertex solid steps (l.halfPoint h) normal = .ok q) : l.OnEdge h q := by
  unfold refineVertex at hq
  cases ha : l.edgeAxis? (l.halfPoint h) with
  | none =>
    rw [ha] at hq
    cases hq
  | some axis =>
    rw [ha] at hq
    have hfound := List.find?_some ha
    have hodd := odd_of_isBetween hd hfound
    have hoff : l.offset axis ((l.halfPoint h).get axis) = l.delta / 2 := by
      rw [offset_halfPoint hd, hodd, Nat.cast_one, one_mul]
    simp only [hoff, Except.ok.injEq] at hq
    subst hq
    intro a
    by_cases hax : a = axis
    · subst hax
      rw [if_pos hodd, Vec3.get_set_self, mul_half_eq, abs_lt]
      generalize (l.halfPoint h).get a = c
      have near {x : K} (hx : x ∈ Set.Ioo (c - l.delta / 2) (c - l.delta / 2 + l.delta)) :
          -(l.delta / 2) < x - c ∧ x - c < l.delta / 2 := by
        obtain ⟨h1, h2⟩ := hx
        constructor <;> linarith
      exact near (bisect_either_mem_Ioo _ steps (lt_add_of_pos_right _ hd) _)
    · rw [Vec3.get_set_of_ne _ _ hax]
      split
      · rw [sub_self, abs_zero, mul_half_eq]
        exact half_pos hd
      · rfl

end Lattice

/-! ## The refined mesh -/

/-- **What a refined mesh consists of.** One function moves all vertices, each as it is refined. -/
theorem refine_eq_ok {solid : Solid K} {l : Lattice K} {steps : Nat} {mesh refined : Mesh K}
    (h : refine solid l steps mesh = .ok refined) :
    ∃ f : Vec3 K → Vec3 K, refined = .ofTriangles (mesh.triangles.map (·.map f)) ∧
      ∀ t ∈ mesh.triangles, ∀ p ∈ t.corners,
        l.refineVertex solid steps p (mesh.indexed.areaNormalAt p) = .ok (f p) := by
  unfold refine at h
  obtain ⟨moved, hmoved, h⟩ := exists_of_bind_eq_ok h
  cases h
  obtain ⟨hkeys, hmoved⟩ := table_of_mapM hmoved
  refine ⟨fun p => ((Std.TreeMap.ofList moved : Std.TreeMap (VertexKey K) (Vec3 K))[p.key]?).getD p,
    rfl, fun t ht p hp => ?_⟩
  obtain ⟨v, hv, hkey⟩ : ∃ v ∈ mesh.indexed.vertices, v.key = p.key :=
    exists_mem_distinctOn (List.mem_flatMap.2 ⟨t, ht, hp⟩)
  obtain rfl := Exact.key_inj.1 hkey
  obtain ⟨q, hq, hmem⟩ := hmoved v hv
  refine hq.trans (congrArg Except.ok ?_)
  have hnodup : (moved.map Prod.fst).Nodup := hkeys ▸ nodup_map_distinctOn _ _
  have hget : (Std.TreeMap.ofList moved : Std.TreeMap (VertexKey K) (Vec3 K))[v.key]? = some q :=
    Std.TreeMap.getElem?_ofList_of_mem Std.ReflCmp.compare_self (pairwise_compare_ne_eq hnodup) hmem
  exact (congrArg (Option.getD · v) hget).symm

/-- A mesh can be refined if each of its vertices can. -/
theorem exists_refine_eq_ok {solid : Solid K} {l : Lattice K} {steps : Nat} {mesh : Mesh K}
    (h : ∀ v ∈ mesh.vertices,
      ∃ q, l.refineVertex solid steps v (mesh.indexed.areaNormalAt v) = .ok q) :
    ∃ refined, refine solid l steps mesh = .ok refined := by
  obtain ⟨moved, hmoved⟩ : ∃ moved, (mesh.indexed.vertices.mapM fun v => do
      return (v.key, ← l.refineVertex solid steps v (mesh.indexed.areaNormalAt v))) = .ok moved :=
    exists_mapM_eq_ok h
  unfold refine
  dsimp only
  rw [hmoved]
  exact ⟨_, rfl⟩

end Isomesh
