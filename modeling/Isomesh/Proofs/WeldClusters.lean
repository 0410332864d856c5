import Isomesh.Proofs.ClusterTables
import Mathlib.Data.List.Basic
import Mathlib.Data.List.Lattice
import Mathlib.Data.List.Pairwise
import Mathlib.Logic.Relation

/-!
# Clusters are connected components

Vertices are entered one after another. After each the clusters are the components of the vertices seen
so far: two of these are in the same cluster just when a chain of vertices seen leads from one to the
other, each sharing a cell with the next. A vertex may connect several clusters; then the one that was
started first takes in the others, so the center of a cluster is the first of its vertices.

* `Connected`: chains of linked vertices.
* `Cluster.Sound`: what holds of each cluster.
* `Cluster.Partition`: what holds of all clusters together.
* `Cluster.Partition.enter`: kept by each vertex, as far as it does what `Cluster.Enters` says.
* `Cluster.Partition.scan`, `Cluster.partition_ofVertices`: kept by all, and so the invariant of a whole scan.
-/

set_option autoImplicit false

namespace Isomesh

variable {K : Type}

/-! ## Chains of linked vertices -/

/-- Whether two vertices have a cell in common. -/
def Linked (cellsOf : Vec3 K → List WeldCell) (u v : Vec3 K) : Prop :=
  ∃ cell ∈ cellsOf u, cell ∈ cellsOf v

/-- Whether a chain of linked vertices of a list leads from one vertex to another. -/
def Connected (cellsOf : Vec3 K → List WeldCell) (vs : List (Vec3 K)) : Vec3 K → Vec3 K → Prop :=
  Relation.ReflTransGen fun u v => u ∈ vs ∧ v ∈ vs ∧ Linked cellsOf u v

namespace Connected

variable {cellsOf : Vec3 K → List WeldCell} {vs ws : List (Vec3 K)} {u v w : Vec3 K}

theorem refl (cellsOf : Vec3 K → List WeldCell) (vs : List (Vec3 K)) (v : Vec3 K) :
    Connected cellsOf vs v v :=
  Relation.ReflTransGen.refl

theorem trans (huv : Connected cellsOf vs u v) (hvw : Connected cellsOf vs v w) :
    Connected cellsOf vs u w :=
  Relation.ReflTransGen.trans huv hvw

theorem symm (h : Connected cellsOf vs u v) : Connected cellsOf vs v u := by
  have hstep : Std.Symm fun u v => u ∈ vs ∧ v ∈ vs ∧ Linked cellsOf u v :=
    ⟨fun _ _ ⟨hu, hv, cell, hcu, hcv⟩ => ⟨hv, hu, cell, hcv, hcu⟩⟩
  exact Relation.ReflTransGen.stdSymm.symm u v h

theorem mono (hsub : vs ⊆ ws) (h : Connected cellsOf vs u v) : Connected cellsOf ws u v :=
  Relation.ReflTransGen.mono (fun _ _ ⟨hu, hv, hlink⟩ => ⟨hsub hu, hsub hv, hlink⟩) _ _ h

theorem of_cell (hu : u ∈ vs) (hv : v ∈ vs) {cell : WeldCell} (hcu : cell ∈ cellsOf u)
    (hcv : cell ∈ cellsOf v) : Connected cellsOf vs u v :=
  Relation.ReflTransGen.single ⟨hu, hv, cell, hcu, hcv⟩

end Connected

variable [Scalar K]

/-! ## The order of the vertices -/

/-- The number of the first vertex of a list with a given key. -/
def rank (vs : List (Vec3 K)) (k : VertexKey K) : Nat := (vs.map Vec3.key).idxOf k

theorem rank_append_of_mem {vs : List (Vec3 K)} (v : Vec3 K) {k : VertexKey K}
    (h : k ∈ vs.map Vec3.key) : rank (vs ++ [v]) k = rank vs k := by
  rw [rank, List.map_append, List.idxOf_append_of_mem h, rank]

theorem rank_le_of_mem {vs : List (Vec3 K)} {v : Vec3 K} (hv : v.key ∉ vs.map Vec3.key)
    {k : VertexKey K} (h : k ∈ vs.map Vec3.key) : rank (vs ++ [v]) k ≤ rank (vs ++ [v]) v.key := by
  have hlt : rank vs k < (vs.map Vec3.key).length := List.idxOf_lt_length_iff.2 h
  have hlast : rank (vs ++ [v]) v.key = (vs.map Vec3.key).length := by
    rw [rank, List.map_append, List.idxOf_append_of_notMem hv]
    simp
  rw [rank_append_of_mem v h, hlast]
  exact Nat.le_of_lt hlt

/-- Of vertices with different keys those in front have smaller numbers. -/
theorem rank_lt_of_mem {before after : List (Vec3 K)} {u v : Vec3 K}
    (hnodup : ((before ++ v :: after).map Vec3.key).Nodup) (hu : u ∈ before) :
    rank (before ++ v :: after) u.key < rank (before ++ v :: after) v.key := by
  have hmem : u.key ∈ before.map Vec3.key := List.mem_map_of_mem hu
  have hnot : v.key ∉ before.map Vec3.key := by
    rw [List.map_append, List.nodup_append] at hnodup
    exact fun hv => hnodup.2.2 _ hv _ List.mem_cons_self rfl
  rw [rank, rank, List.map_append, List.idxOf_append_of_mem hmem, List.idxOf_append_of_notMem hnot]
  exact Nat.lt_add_right _ (List.idxOf_lt_length_iff.2 hmem)

namespace Cluster

variable {cellsOf : Vec3 K → List WeldCell} {seen : List (Vec3 K)} {v : Vec3 K} {c d : Cluster K}
  {clusters near : List (Cluster K)}

/-! ## One cluster -/

/-- What holds of each cluster of the vertices seen. -/
structure Sound (cellsOf : Vec3 K → List WeldCell) (seen : List (Vec3 K)) (c : Cluster K) : Prop where
  center_mem : c.center ∈ seen
  key_mem : c.center.key ∈ c.members
  members_subset : c.members ⊆ seen.map Vec3.key
  connected : ∀ u ∈ seen, u.key ∈ c.members → Connected cellsOf seen c.center u
  first : ∀ k ∈ c.members, rank seen c.center.key ≤ rank seen k
  mem_cells : ∀ cell, cell ∈ c.cells ↔ ∃ u ∈ seen, u.key ∈ c.members ∧ cell ∈ cellsOf u

namespace Sound

theorem center_key_mem (h : c.Sound cellsOf seen) : c.center.key ∈ seen.map Vec3.key :=
  h.members_subset h.key_mem

/-- A cluster stays what it was when a vertex is seen that it does not take in. -/
theorem extend (h : c.Sound cellsOf seen) (hv : v.key ∉ seen.map Vec3.key) :
    c.Sound cellsOf (seen ++ [v]) := by
  have hsub : seen ⊆ seen ++ [v] := List.subset_append_left _ _
  have hold : ∀ u ∈ seen ++ [v], u.key ∈ c.members → u ∈ seen := by
    intro u hu hk
    rcases List.mem_append.1 hu with hu | hu
    · exact hu
    · rw [List.mem_singleton.1 hu] at hk
      exact absurd (h.members_subset hk) hv
  refine ⟨hsub h.center_mem, h.key_mem, fun k hk => ?_, fun u hu hk => ?_, fun k hk => ?_,
    fun cell => ?_⟩
  · rw [List.map_append]
    exact List.mem_append_left _ (h.members_subset hk)
  · exact (h.connected u (hold u hu hk) hk).mono hsub
  · rw [rank_append_of_mem v h.center_key_mem, rank_append_of_mem v (h.members_subset hk)]
    exact h.first k hk
  · rw [h.mem_cells]
    constructor
    · rintro ⟨u, hu, hk, hcell⟩
      exact ⟨u, hsub hu, hk, hcell⟩
    · rintro ⟨u, hu, hk, hcell⟩
      exact ⟨u, hold u hu hk, hk, hcell⟩

/-- A cluster with a cell of a new vertex is connected with it. -/
theorem connected_of_meets (h : c.Sound cellsOf seen) (hmeets : c.meets (cellsOf v) = true) :
    Connected cellsOf (seen ++ [v]) c.center v := by
  obtain ⟨cell, hcv, hcell⟩ := meets_iff.1 hmeets
  obtain ⟨u, hu, hk, hcu⟩ := (h.mem_cells cell).1 hcell
  have hstep : Connected cellsOf (seen ++ [v]) u v :=
    .of_cell (List.mem_append_left _ hu) (List.mem_append_right _ (List.mem_singleton_self v)) hcu hcv
  exact ((h.connected u hu hk).mono (List.subset_append_left _ _)).trans hstep

/-- A vertex on its own. -/
theorem singleton (cellsOf : Vec3 K → List WeldCell) (hv : v.key ∉ seen.map Vec3.key) :
    Sound cellsOf (seen ++ [v]) ⟨v, [v.key], cellsOf v⟩ := by
  have hself : v ∈ seen ++ [v] := List.mem_append_right _ (List.mem_singleton_self v)
  have honly : ∀ u ∈ seen ++ [v], u.key ∈ [v.key] → u = v := by
    intro u hu hk
    rcases List.mem_append.1 hu with hu | hu
    · exact absurd (List.mem_singleton.1 hk ▸ List.mem_map_of_mem hu) hv
    · exact List.mem_singleton.1 hu
  refine ⟨hself, List.mem_singleton_self _, fun k hk => ?_, fun u hu hk => ?_, fun k hk => ?_,
    fun cell => ⟨fun hcell => ⟨v, hself, List.mem_singleton_self _, hcell⟩, ?_⟩⟩
  · rw [List.mem_singleton.1 hk]
    exact List.mem_map_of_mem hself
  · rw [honly u hu hk]
    exact .refl _ _ _
  · exact Nat.le_of_eq (congrArg (rank (seen ++ [v])) (List.mem_singleton.1 hk).symm)
  · rintro ⟨u, hu, hk, hcell⟩
    exact honly u hu hk ▸ hcell

/-- **A cluster that takes in a vertex, and the later clusters that share a cell with it.** -/
theorem absorb (h : c.Sound cellsOf seen) (hv : v.key ∉ seen.map Vec3.key)
    (hmeets : c.meets (cellsOf v) = true)
    (hnear : ∀ d ∈ near, d.Sound cellsOf seen ∧ d.meets (cellsOf v) = true ∧
      rank seen c.center.key ≤ rank seen d.center.key) :
    (c.absorb v (cellsOf v) near).Sound cellsOf (seen ++ [v]) := by
  have hsub : seen ⊆ seen ++ [v] := List.subset_append_left _ _
  have hself : v ∈ seen ++ [v] := List.mem_append_right _ (List.mem_singleton_self v)
  have hcv := h.connected_of_meets hmeets
  have hc := h.extend hv
  have hd : ∀ d ∈ near, d.Sound cellsOf (seen ++ [v]) := fun d hmem => (hnear d hmem).1.extend hv
  refine ⟨hc.center_mem, mem_members_absorb.2 (.inl hc.key_mem), fun k hk => ?_, fun u hu hk => ?_,
    fun k hk => ?_, fun cell => ?_⟩
  · rcases mem_members_absorb.1 hk with hk | rfl | ⟨d, hmem, hk⟩
    · exact hc.members_subset hk
    · exact List.mem_map_of_mem hself
    · exact (hd d hmem).members_subset hk
  · rcases mem_members_absorb.1 hk with hk | hk | ⟨d, hmem, hk⟩
    · exact hc.connected u hu hk
    · rcases List.mem_append.1 hu with hu | hu
      · exact absurd (hk ▸ List.mem_map_of_mem hu) hv
      · rw [List.mem_singleton.1 hu]
        exact hcv
    · -- from the one center over the new vertex to the other
      obtain ⟨hsound, hdmeets, -⟩ := hnear d hmem
      exact hcv.trans ((hsound.connected_of_meets hdmeets).symm.trans ((hd d hmem).connected u hu hk))
  · show rank (seen ++ [v]) c.center.key ≤ _
    rcases mem_members_absorb.1 hk with hk | rfl | ⟨d, hmem, hk⟩
    · exact hc.first k hk
    · exact rank_le_of_mem hv h.center_key_mem
    · obtain ⟨hsound, -, hle⟩ := hnear d hmem
      refine Nat.le_trans ?_ ((hd d hmem).first k hk)
      rwa [rank_append_of_mem v h.center_key_mem, rank_append_of_mem v hsound.center_key_mem]
  · rw [mem_cells_absorb]
    constructor
    · rintro (hcell | hcell | ⟨d, hmem, hcell⟩)
      · obtain ⟨u, hu, hk, hcu⟩ := (hc.mem_cells cell).1 hcell
        exact ⟨u, hu, mem_members_absorb.2 (.inl hk), hcu⟩
      · exact ⟨v, hself, mem_members_absorb.2 (.inr (.inl rfl)), hcell⟩
      · obtain ⟨u, hu, hk, hcu⟩ := ((hd d hmem).mem_cells cell).1 hcell
        exact ⟨u, hu, mem_members_absorb.2 (.inr (.inr ⟨d, hmem, hk⟩)), hcu⟩
    · rintro ⟨u, hu, hk, hcu⟩
      rcases mem_members_absorb.1 hk with hk | hk | ⟨d, hmem, hk⟩
      · exact .inl ((hc.mem_cells cell).2 ⟨u, hu, hk, hcu⟩)
      · rcases List.mem_append.1 hu with hu | hu
        · exact absurd (hk ▸ List.mem_map_of_mem hu) hv
        · exact .inr (.inl (List.mem_singleton.1 hu ▸ hcu))
      · exact .inr (.inr ⟨d, hmem, ((hd d hmem).mem_cells cell).2 ⟨u, hu, hk, hcu⟩⟩)

end Sound

/-! ## All clusters -/

/-- Whether two clusters have nothing in common. -/
structure Apart (c d : Cluster K) : Prop where
  cells : c.cells.Disjoint d.cells
  members : c.members.Disjoint d.members

theorem Apart.symm (h : c.Apart d) : d.Apart c := ⟨h.cells.symm, h.members.symm⟩

instance : Std.Symm (Apart (K := K)) := ⟨fun _ _ => Apart.symm⟩

/-- What holds of the clusters of the vertices seen, together. -/
structure Partition (cellsOf : Vec3 K → List WeldCell) (seen : List (Vec3 K))
    (clusters : List (Cluster K)) : Prop where
  sound : ∀ c ∈ clusters, c.Sound cellsOf seen
  covers : ∀ u ∈ seen, ∃ c ∈ clusters, u.key ∈ c.members
  apart : clusters.Pairwise Apart
  sorted : clusters.Pairwise fun c d => rank seen c.center.key ≤ rank seen d.center.key

/-- What is apart from a cluster, and from those that it takes in, stays apart from it. -/
theorem Apart.absorb {cells : List WeldCell} (hc : d.Apart c) (hmeets : d.meets cells = false)
    (hv : v.key ∉ d.members) (hnear : ∀ e ∈ near, d.Apart e) : d.Apart (c.absorb v cells near) := by
  refine ⟨fun cell hd hcell => ?_, fun k hd hk => ?_⟩
  · rcases mem_cells_absorb.1 hcell with hcell | hcell | ⟨e, he, hcell⟩
    · exact hc.cells hd hcell
    · exact disjoint_of_not_meets hmeets hd hcell
    · exact (hnear e he).cells hd hcell
  · rcases mem_members_absorb.1 hk with hk | rfl | ⟨e, he, hk⟩
    · exact hc.members hd hk
    · exact hv hd
    · exact (hnear e he).members hd hk

namespace Partition

theorem nil (cellsOf : Vec3 K → List WeldCell) : Partition cellsOf [] [] :=
  ⟨by simp, by simp, .nil, .nil⟩

/-- Clusters with a member or a cell in common are the same. -/
theorem eq_of_not_apart (h : Partition cellsOf seen clusters) (hc : c ∈ clusters) (hd : d ∈ clusters)
    (hcd : ¬c.Apart d) : c = d := by
  by_contra hne
  exact hcd (h.apart.forall hc hd hne)

/-- The order of the centers does not depend on a vertex that is seen later. -/
theorem sorted_extend (h : Partition cellsOf seen clusters) (v : Vec3 K) :
    clusters.Pairwise fun c d => rank (seen ++ [v]) c.center.key ≤ rank (seen ++ [v]) d.center.key := by
  refine h.sorted.imp_of_mem fun hc hd hle => ?_
  rwa [rank_append_of_mem v (h.sound _ hc).center_key_mem,
    rank_append_of_mem v (h.sound _ hd).center_key_mem]

/-- A vertex that shares no cell starts a cluster. -/
theorem starts (h : Partition cellsOf seen clusters) (hv : v.key ∉ seen.map Vec3.key)
    (hnone : ∀ c ∈ clusters, c.meets (cellsOf v) = false) :
    Partition cellsOf (seen ++ [v]) (clusters ++ [⟨v, [v.key], cellsOf v⟩]) := by
  refine ⟨fun c hc => ?_, fun u hu => ?_, ?_, ?_⟩
  · rcases List.mem_append.1 hc with hc | hc
    · exact (h.sound c hc).extend hv
    · rw [List.mem_singleton.1 hc]
      exact .singleton cellsOf hv
  · rcases List.mem_append.1 hu with hu | hu
    · obtain ⟨c, hc, hk⟩ := h.covers u hu
      exact ⟨c, List.mem_append_left _ hc, hk⟩
    · rw [List.mem_singleton.1 hu]
      exact ⟨_, List.mem_append_right _ (List.mem_singleton_self _), List.mem_singleton_self _⟩
  · refine List.pairwise_append.2 ⟨h.apart, List.pairwise_singleton _ _, fun c hc d hd => ?_⟩
    rw [List.mem_singleton.1 hd]
    refine ⟨disjoint_of_not_meets (hnone c hc), fun k hk hkv => ?_⟩
    exact hv (List.mem_singleton.1 hkv ▸ (h.sound c hc).members_subset hk)
  · refine List.pairwise_append.2 ⟨h.sorted_extend v, List.pairwise_singleton _ _, fun c hc d hd => ?_⟩
    rw [List.mem_singleton.1 hd]
    exact rank_le_of_mem hv (h.sound c hc).center_key_mem

/-- A vertex joins the first cluster with one of its cells, and so do all others that have one. -/
theorem joins {before rest : List (Cluster K)} (h : Partition cellsOf seen (before ++ c :: rest))
    (hv : v.key ∉ seen.map Vec3.key) (hbefore : ∀ d ∈ before, d.meets (cellsOf v) = false)
    (hmeets : c.meets (cellsOf v) = true) :
    Partition cellsOf (seen ++ [v]) (before ++
      c.absorb v (cellsOf v) (rest.filter (·.meets (cellsOf v))) ::
        rest.filter fun d => !d.meets (cellsOf v)) := by
  have hc : c ∈ before ++ c :: rest := List.mem_append_right _ List.mem_cons_self
  have hrest {d : Cluster K} (hd : d ∈ rest) : d ∈ before ++ c :: rest :=
    List.mem_append_right _ (List.mem_cons_of_mem c hd)
  have hfresh {d : Cluster K} (hd : d ∈ before ++ c :: rest) : v.key ∉ d.members :=
    fun hk => hv ((h.sound d hd).members_subset hk)
  obtain ⟨hapartBefore, hapartTail, hapartCross⟩ := List.pairwise_append.1 h.apart
  obtain ⟨hapartCenter, hapartRest⟩ := List.pairwise_cons.1 hapartTail
  obtain ⟨hsortedBefore, hsortedTail, hsortedCross⟩ := List.pairwise_append.1 (h.sorted_extend v)
  obtain ⟨hsortedCenter, hsortedRest⟩ := List.pairwise_cons.1 hsortedTail
  have hkept {d : Cluster K} (hd : d ∈ rest.filter fun d => !d.meets (cellsOf v)) :
      d ∈ rest ∧ d.meets (cellsOf v) = false := by
    simpa using hd
  have hnear {d : Cluster K} (hd : d ∈ rest.filter (·.meets (cellsOf v))) :
      d ∈ rest ∧ d.meets (cellsOf v) = true := by
    simpa using hd
  refine ⟨fun d hd => ?_, fun u hu => ?_, ?_, ?_⟩
  · rcases List.mem_append.1 hd with hd | hd
    · exact (h.sound d (List.mem_append_left _ hd)).extend hv
    · rcases List.mem_cons.1 hd with rfl | hd
      · refine (h.sound c hc).absorb hv hmeets fun d hd => ?_
        obtain ⟨hd, hdmeets⟩ := hnear hd
        exact ⟨h.sound d (hrest hd), hdmeets,
          (List.pairwise_cons.1 (List.pairwise_append.1 h.sorted).2.1).1 d hd⟩
      · exact (h.sound d (hrest (hkept hd).1)).extend hv
  · rcases List.mem_append.1 hu with hu | hu
    · obtain ⟨d, hd, hk⟩ := h.covers u hu
      rcases List.mem_append.1 hd with hd | hd
      · exact ⟨d, List.mem_append_left _ hd, hk⟩
      · rcases List.mem_cons.1 hd with rfl | hd
        · exact ⟨_, List.mem_append_right _ List.mem_cons_self, mem_members_absorb.2 (.inl hk)⟩
        · cases hdmeets : d.meets (cellsOf v) with
          | true =>
            exact ⟨_, List.mem_append_right _ List.mem_cons_self,
              mem_members_absorb.2 (.inr (.inr ⟨d, List.mem_filter.2 ⟨hd, hdmeets⟩, hk⟩))⟩
          | false =>
            exact ⟨d, List.mem_append_right _ (List.mem_cons_of_mem _
              (List.mem_filter.2 ⟨hd, by simp [hdmeets]⟩)), hk⟩
    · rw [List.mem_singleton.1 hu]
      exact ⟨_, List.mem_append_right _ List.mem_cons_self, mem_members_absorb.2 (.inr (.inl rfl))⟩
  · refine List.pairwise_append.2 ⟨hapartBefore, List.pairwise_cons.2
      ⟨fun d hd => ?_, hapartRest.filter _⟩, fun d hd e he => ?_⟩
    · obtain ⟨hd, hdmeets⟩ := hkept hd
      refine ((hapartCenter d hd).symm.absorb hdmeets (hfresh (hrest hd)) fun e he => ?_).symm
      obtain ⟨he, hemeets⟩ := hnear he
      refine hapartRest.forall hd he fun heq => ?_
      rw [heq, hemeets] at hdmeets
      cases hdmeets
    · rcases List.mem_cons.1 he with rfl | he
      · refine (hapartCross d hd c List.mem_cons_self).absorb (hbefore d hd)
          (hfresh (List.mem_append_left _ hd)) fun e he => ?_
        exact hapartCross d hd e (List.mem_cons_of_mem c (hnear he).1)
      · exact hapartCross d hd e (List.mem_cons_of_mem c (hkept he).1)
  · refine List.pairwise_append.2 ⟨hsortedBefore, List.pairwise_cons.2
      ⟨fun d hd => hsortedCenter d (hkept hd).1, hsortedRest.filter _⟩, fun d hd e he => ?_⟩
    rcases List.mem_cons.1 he with rfl | he
    · exact hsortedCross d hd c List.mem_cons_self
    · exact hsortedCross d hd e (List.mem_cons_of_mem c (hkept he).1)

/-- **Entering a vertex keeps the partition.** -/
theorem enter (h : Partition cellsOf seen clusters) (hv : v.key ∉ seen.map Vec3.key)
    {entered : List (Cluster K)} (henter : Enters v (cellsOf v) clusters entered) :
    Partition cellsOf (seen ++ [v]) entered := by
  cases henter with
  | starts hnone => exact h.starts hv hnone
  | joins before c rest heq hbefore hmeets =>
    subst heq
    exact h.joins hv hbefore hmeets

/-- So does a scan of further vertices with different keys. By induction on the vertices, with those seen
before growing. -/
theorem scan {vs : List (Vec3 K)} {s : Clustering K} (h : Partition cellsOf seen s.clusters)
    (hindexed : s.Indexed) (hnodup : ((seen ++ vs).map Vec3.key).Nodup) :
    Partition cellsOf (seen ++ vs) (vs.foldl (fun s v => s.enter v (cellsOf v)) s).clusters := by
  induction vs generalizing seen s with
  | nil => rwa [List.append_nil]
  | cons v vs ih =>
    have hv : v.key ∉ seen.map Vec3.key := by
      rw [List.map_append, List.nodup_append] at hnodup
      exact fun hk => hnodup.2.2 _ hk _ List.mem_cons_self rfl
    rw [List.append_cons] at hnodup ⊢
    exact ih (h.enter hv (hindexed.enters v (cellsOf v))) (hindexed.enter v (cellsOf v)) hnodup

end Partition

/-- **The clusters of vertices with different keys** are a partition of them. -/
theorem partition_ofVertices (cellsOf : Vec3 K → List WeldCell) {vs : List (Vec3 K)}
    (hvs : (vs.map Vec3.key).Nodup) : Partition cellsOf vs (ofVertices cellsOf vs) := by
  have hnil : Partition cellsOf [] (Clustering.empty : Clustering K).clusters := .nil cellsOf
  exact hnil.scan Clustering.indexed_empty hvs

/-! ## Where the members go -/

/-- Where a member is sent by clusters of which one has it, or by the table that they are added to. By
induction on the clusters: a later one does not have the member. -/
theorem getElem?_foldl_centers {q : Vec3 K} {k : VertexKey K} (hapart : clusters.Pairwise Apart)
    (table : Std.TreeMap (VertexKey K) (Vec3 K))
    (h : (∃ c ∈ clusters, k ∈ c.members ∧ c.center = q) ∨
      (∀ c ∈ clusters, k ∉ c.members) ∧ table[k]? = some q) :
    (clusters.foldl (fun table c => c.members.foldl (fun table l => table.insert l c.center) table)
      table)[k]? = some q := by
  induction clusters generalizing table with
  | nil =>
    rcases h with ⟨c, hc, -⟩ | ⟨-, htable⟩
    · cases hc
    · exact htable
  | cons d clusters ih =>
    obtain ⟨hd, hapart⟩ := List.pairwise_cons.1 hapart
    refine ih hapart _ ?_
    rw [getElem?_foldl_insert]
    rcases h with ⟨c, hc, hk, hcenter⟩ | ⟨hnone, htable⟩
    · rcases List.mem_cons.1 hc with rfl | hc
      · exact .inr ⟨fun e he hke => (hd e he).members hk hke, by rw [if_pos hk, hcenter]⟩
      · exact .inl ⟨c, hc, hk, hcenter⟩
    · obtain ⟨hkd, hnone⟩ := List.forall_mem_cons.1 hnone
      exact .inr ⟨hnone, (if_neg hkd).trans htable⟩

/-- A member goes to the center of its cluster. -/
theorem getElem?_centers (hapart : clusters.Pairwise Apart) (hc : c ∈ clusters) {k : VertexKey K}
    (hk : k ∈ c.members) : (centers clusters)[k]? = some c.center :=
  getElem?_foldl_centers hapart ∅ (.inl ⟨c, hc, hk, rfl⟩)

end Cluster

end Isomesh
