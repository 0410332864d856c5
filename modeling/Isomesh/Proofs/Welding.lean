import Mathlib
import Isomesh.Proofs.Exact
import Isomesh.Proofs.WeldClusters

/-!
# Welding moves components to their first vertices

Welding takes the connected components of the vertices under "share a cell" and moves each to its first
vertex. No two of the vertices that are left share a cell, so a second welding finds every vertex on its
own and moves nothing. This holds whatever the cells of the vertices are.

* `Mesh.Canonical`: where welding moves the vertices.
* `Mesh.canonical_weldTarget`: the cells of the clusters, read as components.
* `Mesh.weldBy_weldBy`: welding a second time.
-/

set_option autoImplicit false

namespace Isomesh

theorem Triangle.map_eq_self {K : Type} {f : Vec3 K → Vec3 K} {t : Triangle K}
    (h : ∀ p ∈ t.corners, f p = p) : t.map f = t := by
  obtain ⟨a, b, c⟩ := t
  simp only [corners, List.forall_mem_cons] at h
  obtain ⟨ha, hb, hc, -⟩ := h
  rw [map, ha, hb, hc]

variable {K : Type} [Scalar K]

namespace Mesh

variable {m : Mesh K} {cellsOf : Vec3 K → List WeldCell} {canon : Vec3 K → Vec3 K}

/-! ## Vertices -/

theorem nodup_key_vertices (m : Mesh K) : (m.vertices.map Vec3.key).Nodup := nodup_map_distinctOn _ _

theorem exists_vertex_of_corner {t : Triangle K} (ht : t ∈ m.triangles) {p : Vec3 K}
    (hp : p ∈ t.corners) : ∃ v ∈ m.vertices, v.key = p.key :=
  exists_mem_distinctOn (List.mem_flatMap.2 ⟨t, ht, hp⟩)

theorem exists_corner_of_vertex {v : Vec3 K} (hv : v ∈ m.vertices) :
    ∃ t ∈ m.triangles, v ∈ t.corners :=
  List.mem_flatMap.1 ((distinctOn_sublist _ _).subset hv)

theorem eq_of_key_eq {u v : Vec3 K} (hu : u ∈ m.vertices) (hv : v ∈ m.vertices)
    (h : u.key = v.key) : u = v :=
  List.inj_on_of_nodup_map m.nodup_key_vertices hu hv h

/-- In exact arithmetic every corner is a vertex. -/
theorem mem_vertices_of_corner {K : Type} [Field K] [LinearOrder K] [IsStrictOrderedRing K]
    [FloorRing K] [SquareRoot K] {m : Mesh K} {t : Triangle K} (ht : t ∈ m.triangles) {p : Vec3 K}
    (hp : p ∈ t.corners) : p ∈ m.vertices := by
  obtain ⟨v, hv, hkey⟩ := exists_vertex_of_corner ht hp
  exact Exact.key_inj.1 hkey ▸ hv

/-! ## Where vertices go -/

/-- Whether a function takes all corners to the first vertices of their components. -/
structure Canonical (m : Mesh K) (cellsOf : Vec3 K → List WeldCell) (canon : Vec3 K → Vec3 K) :
    Prop where
  /-- A corner goes where the vertex with its key goes. -/
  corner : ∀ t ∈ m.triangles, ∀ p ∈ t.corners, ∃ v ∈ m.vertices, v.key = p.key ∧ canon p = canon v
  /-- Vertices go to the same place just when they are connected. -/
  eq_iff : ∀ u ∈ m.vertices, ∀ v ∈ m.vertices,
    canon u = canon v ↔ Connected cellsOf m.vertices u v
  /-- A vertex goes to the first vertex that it is connected with. -/
  first : ∀ v ∈ m.vertices, ∃ before after, m.vertices = before ++ canon v :: after ∧
    Connected cellsOf m.vertices v (canon v) ∧ ∀ u ∈ before, ¬Connected cellsOf m.vertices v u

/-- Where welding moves a point. -/
def weldTarget (m : Mesh K) (cellsOf : Vec3 K → List WeldCell) (p : Vec3 K) : Vec3 K :=
  ((Cluster.centers (Cluster.ofVertices cellsOf m.vertices))[p.key]?).getD p

theorem weldBy_eq (m : Mesh K) (cellsOf : Vec3 K → List WeldCell) :
    m.weldBy cellsOf = ofTriangles (m.triangles.map (·.map (m.weldTarget cellsOf))) := rfl

theorem triangles_weldBy (m : Mesh K) (cellsOf : Vec3 K → List WeldCell) :
    (m.weldBy cellsOf).triangles = m.triangles.map (·.map (m.weldTarget cellsOf)) :=
  triangles_ofTriangles _

/-- A vertex goes to the center of the cluster that it is a member of. -/
theorem exists_cluster (cellsOf : Vec3 K → List WeldCell) {v : Vec3 K} (hv : v ∈ m.vertices) :
    ∃ c ∈ Cluster.ofVertices cellsOf m.vertices, v.key ∈ c.members ∧
      ∀ p : Vec3 K, p.key = v.key → m.weldTarget cellsOf p = c.center := by
  have hpart := Cluster.partition_ofVertices cellsOf m.nodup_key_vertices
  obtain ⟨c, hc, hk⟩ := hpart.covers v hv
  refine ⟨c, hc, hk, fun p hp => ?_⟩
  rw [weldTarget, Cluster.getElem?_centers hpart.apart hc (hp ▸ hk), Option.getD_some]

/-- Vertices that share a cell go to the same place: their clusters have that cell in common. -/
theorem weldTarget_eq_of_linked {u v : Vec3 K} (hu : u ∈ m.vertices) (hv : v ∈ m.vertices)
    (hlink : Linked cellsOf u v) : m.weldTarget cellsOf u = m.weldTarget cellsOf v := by
  have hpart := Cluster.partition_ofVertices cellsOf m.nodup_key_vertices
  obtain ⟨cell, hcu, hcv⟩ := hlink
  obtain ⟨c, hc, hkc, hcenter⟩ := exists_cluster cellsOf hu
  obtain ⟨d, hd, hkd, hcenter'⟩ := exists_cluster cellsOf hv
  have hcell : cell ∈ c.cells := ((hpart.sound c hc).mem_cells cell).2 ⟨u, hu, hkc, hcu⟩
  have hcell' : cell ∈ d.cells := ((hpart.sound d hd).mem_cells cell).2 ⟨v, hv, hkd, hcv⟩
  have hcd : c = d := hpart.eq_of_not_apart hc hd fun hapart => hapart.cells hcell hcell'
  rw [hcenter u rfl, hcd, hcenter' v rfl]

/-- Vertices go to the same place just when they are connected. -/
theorem weldTarget_eq_iff {u v : Vec3 K} (hu : u ∈ m.vertices) (hv : v ∈ m.vertices) :
    m.weldTarget cellsOf u = m.weldTarget cellsOf v ↔ Connected cellsOf m.vertices u v := by
  have hpart := Cluster.partition_ofVertices cellsOf m.nodup_key_vertices
  constructor
  · intro heq
    obtain ⟨c, hc, hkc, hcenter⟩ := exists_cluster cellsOf hu
    obtain ⟨d, hd, hkd, hcenter'⟩ := exists_cluster cellsOf hv
    have hcu := (hpart.sound c hc).connected u hu hkc
    have hdv := (hpart.sound d hd).connected v hv hkd
    rw [← hcenter u rfl, heq, hcenter' v rfl] at hcu
    exact hcu.symm.trans hdv
  · intro hconn
    induction hconn with
    | refl => rfl
    | tail _ hstep ih =>
      obtain ⟨hw, hx, hlink⟩ := hstep
      exact (ih hw).trans (weldTarget_eq_of_linked hw hx hlink)

/-- No vertex in front of the place where a vertex goes is connected with it. -/
theorem exists_first_of_vertex (cellsOf : Vec3 K → List WeldCell) {v : Vec3 K} (hv : v ∈ m.vertices) :
    ∃ before after, m.vertices = before ++ m.weldTarget cellsOf v :: after ∧
      Connected cellsOf m.vertices v (m.weldTarget cellsOf v) ∧
      ∀ u ∈ before, ¬Connected cellsOf m.vertices v u := by
  have hpart := Cluster.partition_ofVertices cellsOf m.nodup_key_vertices
  obtain ⟨c, hc, hk, hcenter⟩ := exists_cluster cellsOf hv
  have hsound := hpart.sound c hc
  obtain ⟨before, after, heq⟩ := List.mem_iff_append.1 hsound.center_mem
  rw [hcenter v rfl]
  refine ⟨before, after, heq, (hsound.connected v hv hk).symm, fun u hu hconn => ?_⟩
  have humem : u ∈ m.vertices := heq ▸ List.mem_append_left _ hu
  obtain ⟨d, hd, hkd, hcenter'⟩ := exists_cluster cellsOf humem
  have hsame : c.center = d.center := by
    rw [← hcenter v rfl, ← hcenter' u rfl]
    exact (weldTarget_eq_iff hv humem).2 hconn
  have hcd : c = d := hpart.eq_of_not_apart hc hd fun hapart =>
    hapart.members hsound.key_mem (hsame ▸ (hpart.sound d hd).key_mem)
  have hle := hsound.first u.key (hcd ▸ hkd)
  have hlt := rank_lt_of_mem (heq ▸ m.nodup_key_vertices) hu
  rw [← heq] at hlt
  omega

/-- **Welding moves components to their first vertices.** -/
theorem canonical_weldTarget (m : Mesh K) (cellsOf : Vec3 K → List WeldCell) :
    m.Canonical cellsOf (m.weldTarget cellsOf) where
  corner t ht p hp := by
    obtain ⟨v, hv, hkey⟩ := exists_vertex_of_corner ht hp
    obtain ⟨c, -, -, hcenter⟩ := exists_cluster cellsOf hv
    exact ⟨v, hv, hkey, (hcenter p hkey.symm).trans (hcenter v rfl).symm⟩
  eq_iff u hu v hv := weldTarget_eq_iff hu hv
  first v hv := exists_first_of_vertex cellsOf hv

/-! ## Welding again -/

namespace Canonical

theorem mem_vertices (h : m.Canonical cellsOf canon) {v : Vec3 K} (hv : v ∈ m.vertices) :
    canon v ∈ m.vertices := by
  obtain ⟨before, after, heq, -⟩ := h.first v hv
  rw [heq]
  exact List.mem_append_right _ List.mem_cons_self

theorem idem (h : m.Canonical cellsOf canon) {v : Vec3 K} (hv : v ∈ m.vertices) :
    canon (canon v) = canon v := by
  obtain ⟨-, -, -, hconn, -⟩ := h.first v hv
  exact ((h.eq_iff v hv _ (h.mem_vertices hv)).2 hconn).symm

/-- The corners that are left are vertices that stay where they are. -/
theorem fixed_of_corner (h : m.Canonical cellsOf canon) {t : Triangle K}
    (ht : t ∈ m.triangles.map (·.map canon)) {p : Vec3 K} (hp : p ∈ t.corners) :
    p ∈ m.vertices ∧ canon p = p := by
  obtain ⟨u, hu, rfl⟩ := List.mem_map.1 ht
  obtain ⟨q, hq, rfl⟩ : ∃ q ∈ u.corners, canon q = p := by
    simpa [Triangle.corners, Triangle.map, eq_comm] using hp
  obtain ⟨v, hv, -, heq⟩ := h.corner u hu q hq
  rw [heq]
  exact ⟨h.mem_vertices hv, h.idem hv⟩

/-- On the vertices that are left a second welding moves nothing. By the first, vertices that are still
connected would have gone to the same place. -/
theorem eq_self (h : m.Canonical cellsOf canon) {welded : Mesh K} {again : Vec3 K → Vec3 K}
    (hwelded : welded.triangles = m.triangles.map (·.map canon))
    (h' : welded.Canonical cellsOf again) {t : Triangle K} (ht : t ∈ welded.triangles) {p : Vec3 K}
    (hp : p ∈ t.corners) : again p = p := by
  have hleft {v : Vec3 K} (hv : v ∈ welded.vertices) : v ∈ m.vertices ∧ canon v = v := by
    obtain ⟨u, hu, hvu⟩ := exists_corner_of_vertex hv
    exact h.fixed_of_corner (hwelded ▸ hu) hvu
  obtain ⟨w, hw, hkey, hagain⟩ := h'.corner t ht p hp
  obtain ⟨hwm, hfixed⟩ := hleft hw
  obtain rfl : w = p := eq_of_key_eq hwm (h.fixed_of_corner (hwelded ▸ ht) hp).1 hkey
  obtain ⟨-, -, -, hconn, -⟩ := h'.first w hw
  obtain ⟨hwm', hfixed'⟩ := hleft (h'.mem_vertices hw)
  have hsub : welded.vertices ⊆ m.vertices := fun v hv => (hleft hv).1
  have hsame := (h.eq_iff w hwm _ hwm').2 (hconn.mono hsub)
  rw [hfixed, hfixed'] at hsame
  exact hsame.symm

end Canonical

/-- **Welding again changes nothing.** -/
theorem weldBy_weldBy (m : Mesh K) (cellsOf : Vec3 K → List WeldCell) :
    (m.weldBy cellsOf).weldBy cellsOf = m.weldBy cellsOf := by
  have hwelded := m.triangles_weldBy cellsOf
  have hsame : (m.weldBy cellsOf).triangles.map (·.map ((m.weldBy cellsOf).weldTarget cellsOf)) =
      (m.weldBy cellsOf).triangles := by
    refine (List.map_congr_left fun t ht => ?_).trans (List.map_id _)
    exact Triangle.map_eq_self fun p hp =>
      (m.canonical_weldTarget cellsOf).eq_self hwelded (canonical_weldTarget _ cellsOf) ht hp
  rw [weldBy_eq (m.weldBy cellsOf), hsame, hwelded, ← weldBy_eq]

theorem weld_eq_ok {epsilon : K} (hfinite : Scalar.isFinite epsilon = true) (hpos : 0 < epsilon)
    (m : Mesh K) : m.weld epsilon = .ok (m.weldBy (weldCells epsilon)) := by
  rw [weld, if_pos]
  simp [hfinite, hpos]

/-! ## Main results -/

/-- **Welding computes connected components.** Whatever the cells of the vertices are, the triangles are
the old ones in their order with the corners moved: each to the first vertex of its component, so two
vertices are moved to the same place just when a chain of vertices, each sharing a cell with the next,
leads from one to the other. With an accepted distance these are the eight cells around each vertex. -/
theorem weld_joins_components (m : Mesh K) (cellsOf : Vec3 K → List WeldCell) :
    (∃ canon, (m.weldBy cellsOf).triangles = m.triangles.map (·.map canon) ∧
      m.Canonical cellsOf canon) ∧
    ∀ epsilon, Scalar.isFinite epsilon = true → 0 < epsilon →
      m.weld epsilon = .ok (m.weldBy (weldCells epsilon)) := by
  exact ⟨⟨m.weldTarget cellsOf, m.triangles_weldBy cellsOf, m.canonical_weldTarget cellsOf⟩,
    fun epsilon hfinite hpos => m.weld_eq_ok hfinite hpos⟩

/-- **Welding is idempotent.** A mesh that has been welded is the result of welding it again, with its
triangles as they are to the last coordinate. -/
theorem weld_idempotent {epsilon : K} {m welded : Mesh K} (h : m.weld epsilon = .ok welded) :
    welded.weld epsilon = .ok welded := by
  unfold weld at h ⊢
  split at h
  · rename_i haccepted
    cases h
    rw [if_pos haccepted, weldBy_weldBy]
  · cases h

/-- Three triangles at a common edge. The tip of the third is near those of the first two, which are not
near each other. A fourth has lost its area. -/
def bridge : Mesh ℚ :=
  .ofTriangles [⟨⟨0, 0, 0⟩, ⟨5, 0, 0⟩, ⟨0, 5, 0⟩⟩, ⟨⟨9 / 5, 0, 0⟩, ⟨5, 0, 0⟩, ⟨0, 5, 0⟩⟩,
    ⟨⟨3 / 5, 0, 0⟩, ⟨5, 0, 0⟩, ⟨0, 5, 0⟩⟩, ⟨⟨3 / 5, 0, 0⟩, ⟨3 / 5, 0, 0⟩, ⟨0, 5, 0⟩⟩]

theorem bridge_welds : ∃ canon : Vec3 ℚ → Vec3 ℚ, bridge.weld 1 = .ok (bridge.weldBy (weldCells 1)) ∧
    (bridge.weldBy (weldCells 1)).triangles = bridge.triangles.map (·.map canon) ∧
    canon ⟨0, 0, 0⟩ = canon ⟨9 / 5, 0, 0⟩ := by
  obtain ⟨⟨canon, htriangles, hcanon⟩, hweld⟩ := weld_joins_components bridge (weldCells 1)
  refine ⟨canon, hweld 1 (by decide +kernel) (by decide +kernel), htriangles, ?_⟩
  refine (hcanon.eq_iff _ (by decide +kernel) _ (by decide +kernel)).2 ?_
  have hmem : (⟨3 / 5, 0, 0⟩ : Vec3 ℚ) ∈ bridge.vertices := by decide +kernel
  have hleft : Connected (weldCells 1) bridge.vertices ⟨0, 0, 0⟩ ⟨3 / 5, 0, 0⟩ :=
    .of_cell (by decide +kernel) hmem
      (show ((1, 0, 0) : WeldCell) ∈ weldCells (1 : ℚ) ⟨0, 0, 0⟩ by decide +kernel) (by decide +kernel)
  exact hleft.trans (.of_cell hmem (by decide +kernel)
    (show ((2, 0, 0) : WeldCell) ∈ weldCells (1 : ℚ) ⟨3 / 5, 0, 0⟩ by decide +kernel)
    (by decide +kernel))

theorem bridge_stays_welded : ∃ welded, bridge.weld 1 = .ok welded ∧ welded.vertices.length = 3 ∧
    welded.weld 1 = .ok welded := by
  have hcount : (bridge.weld 1).map (·.vertices.length) = .ok 3 := by decide +kernel
  cases h : bridge.weld 1 with
  | error e =>
    rw [h] at hcount
    cases hcount
  | ok welded =>
    rw [h] at hcount
    injection hcount with hcount
    exact ⟨welded, rfl, hcount, weld_idempotent h⟩

end Mesh

end Isomesh
