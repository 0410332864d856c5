import Mathlib
import Isomesh.Proofs.MeshIndex

/-!
# How many edges are irregular

A mesh finds its edges in the order in which they come up and asks its index about each. What it counts
are the unordered pairs of keys that are an edge of some triangle and have another number of triangles
than two. So the count depends on the triangles alone, and a vertex map under which no two keys meet
does not change it.

* `Segment.pair_inj`: a segment is known by the unordered pair of its keys.
* `Mesh.length_edges_eq_card`, `Mesh.Coherent.irregularEdges_eq_card`: what a mesh counts.
* `card_edgePairs_map`, `pairCount_map`, `card_irregularPairs_map`: vertex maps.
-/

set_option autoImplicit false

namespace Isomesh

variable {K : Type} [Scalar K]

/-! ## Unordered pairs of keys -/

/-- The keys of the ends, in no order. -/
def Segment.pair (s : Segment K) : Sym2 (VertexKey K) := s(s.lo.key, s.hi.key)

theorem Segment.pair_between (p q : Vec3 K) : (between p q).pair = s(p.key, q.key) := by
  unfold between
  split
  · rfl
  · exact Sym2.eq_swap

/-- Two segments with the same keys at their ends have these in the same order. -/
theorem Segment.pair_inj {s t : Segment K} : s.pair = t.pair ↔ s.key = t.key := by
  constructor
  · intro h
    rw [pair, pair, Sym2.eq_iff] at h
    rcases h with ⟨hlo, hhi⟩ | ⟨hlo, hhi⟩
    · rw [key, key, hlo, hhi]
    · have hs := s.ordered
      rw [hlo, hhi] at hs
      have hsame : t.lo.key = t.hi.key :=
        Std.LawfulEqOrd.eq_of_compare (Std.OrientedCmp.isLE_antisymm t.ordered hs)
      rw [key, key, hlo, hhi, hsame]
  · intro h
    obtain ⟨hlo, hhi⟩ := (EdgeKey.mk.injEq ..).mp h
    rw [pair, pair, hlo, hhi]

/-- The edges of some triangles. -/
def edgePairs (ts : List (Triangle K)) : Finset (Sym2 (VertexKey K)) :=
  ((ts.flatMap Triangle.segments).map Segment.pair).toFinset

/-- The number of triangles that have both keys of a pair. -/
def pairCount (ts : List (Triangle K)) (e : Sym2 (VertexKey K)) : Nat :=
  Sym2.lift ⟨fun k l => ts.countP fun t => t.hasCorner k && t.hasCorner l,
    fun _ _ => List.countP_congr fun _ _ => by rw [Bool.and_comm]⟩ e

/-- The edges that do not belong to exactly two triangles. -/
def irregularPairs (ts : List (Triangle K)) : Finset (Sym2 (VertexKey K)) :=
  (edgePairs ts).filter fun e => pairCount ts e ≠ 2

theorem pairCount_mk (ts : List (Triangle K)) (k l : VertexKey K) :
    pairCount ts s(k, l) = ts.countP fun t => t.hasCorner k && t.hasCorner l := rfl

theorem mem_edgePairs {ts : List (Triangle K)} {e : Sym2 (VertexKey K)} :
    e ∈ edgePairs ts ↔ ∃ t ∈ ts, ∃ side ∈ t.sides, s(side.1.key, side.2.key) = e := by
  simp only [edgePairs, List.mem_toFinset, List.mem_map, List.mem_flatMap, Triangle.segments]
  constructor
  · rintro ⟨_, ⟨t, ht, side, hside, rfl⟩, rfl⟩
    exact ⟨t, ht, side, hside, (Segment.pair_between _ _).symm⟩
  · rintro ⟨t, ht, side, hside, rfl⟩
    exact ⟨_, ⟨t, ht, side, hside, rfl⟩, Segment.pair_between _ _⟩

/-! ## What a mesh counts -/

namespace Mesh

variable {m : Mesh K}

theorem Coherent.isRegular_eq (h : m.Coherent) (s : Segment K) :
    m.isRegular s = decide (pairCount m.triangles s.pair = 2) := by
  rw [isRegular, h.length_trianglesAlong]
  rfl

theorem nodup_pair_edges (m : Mesh K) : (m.edges.map Segment.pair).Nodup := by
  have hkeys : (m.edges.map Segment.key).Nodup := nodup_map_distinctOn _ _
  rw [List.Nodup, List.pairwise_map] at hkeys ⊢
  exact hkeys.imp fun hne hpair => hne (Segment.pair_inj.1 hpair)

theorem mem_pair_edges {e : Sym2 (VertexKey K)} :
    e ∈ m.edges.map Segment.pair ↔ e ∈ edgePairs m.triangles := by
  rw [edgePairs, List.mem_toFinset, List.mem_map, List.mem_map]
  constructor
  · rintro ⟨s, hs, rfl⟩
    exact ⟨s, (distinctOn_sublist _ _).subset hs, rfl⟩
  · rintro ⟨s, hs, rfl⟩
    obtain ⟨t, ht, hst⟩ := List.mem_flatMap.1 hs
    obtain ⟨first, hfirst, hkey⟩ := exists_mem_edges ht hst
    exact ⟨first, hfirst, Segment.pair_inj.2 hkey⟩

/-- The edges of a mesh are the pairs of keys that are an edge. -/
theorem length_edges_eq_card (m : Mesh K) : m.edges.length = (edgePairs m.triangles).card := by
  rw [← List.length_map Segment.pair, ← List.toFinset_card_of_nodup m.nodup_pair_edges]
  congr 1
  ext e
  rw [List.mem_toFinset, mem_pair_edges]

/-- **A mesh counts the pairs of keys that are an edge and have another number of triangles than two.** -/
theorem Coherent.irregularEdges_eq_card (h : m.Coherent) :
    m.irregularEdges = (irregularPairs m.triangles).card := by
  have hfilter : m.irregularEdges =
      ((m.edges.map Segment.pair).filter fun e => pairCount m.triangles e ≠ 2).length := by
    rw [List.filter_map, List.length_map]
    refine congrArg List.length (List.filter_congr fun s _ => ?_)
    rw [h.indexed.isRegular_eq, ← decide_not]
    rfl
  rw [hfilter, ← List.toFinset_card_of_nodup (m.nodup_pair_edges.filter _)]
  congr 1
  ext e
  simp only [List.mem_toFinset, List.mem_filter, decide_eq_true_eq, mem_pair_edges, irregularPairs,
    Finset.mem_filter]

end Mesh

/-! ## Vertex maps -/

section Maps

variable {ts : List (Triangle K)} {f : Vec3 K → Vec3 K} {g : VertexKey K → VertexKey K}

theorem Triangle.keys_map (hf : ∀ p, (f p).key = g p.key) (t : Triangle K) :
    (t.map f).keys = t.keys.map g := by
  simp only [keys, corners, map, List.map_cons, List.map_nil, hf]

/-- The keys of all corners. -/
def cornerKeys (ts : List (Triangle K)) : Set (VertexKey K) := {k | ∃ t ∈ ts, k ∈ t.keys}

theorem cornerKeys_map (hf : ∀ p, (f p).key = g p.key) :
    cornerKeys (ts.map (·.map f)) = g '' cornerKeys ts := by
  ext k
  constructor
  · rintro ⟨mapped, hmapped, hk⟩
    obtain ⟨t, ht, rfl⟩ := List.mem_map.1 hmapped
    rw [t.keys_map hf] at hk
    obtain ⟨l, hl, rfl⟩ := List.mem_map.1 hk
    exact ⟨l, ⟨t, ht, hl⟩, rfl⟩
  · rintro ⟨l, ⟨t, ht, hl⟩, rfl⟩
    exact ⟨t.map f, List.mem_map_of_mem ht, t.keys_map hf ▸ List.mem_map_of_mem hl⟩

theorem edgePairs_map (hf : ∀ p, (f p).key = g p.key) :
    edgePairs (ts.map (·.map f)) = (edgePairs ts).image (Sym2.map g) := by
  ext e
  simp only [Finset.mem_image, mem_edgePairs]
  constructor
  · rintro ⟨mapped, hmapped, side, hside, rfl⟩
    obtain ⟨t, ht, rfl⟩ := List.mem_map.1 hmapped
    have hsides : (t.map f).sides = t.sides.map (Prod.map f f) := rfl
    rw [hsides] at hside
    obtain ⟨old, hold, rfl⟩ := List.mem_map.1 hside
    refine ⟨_, ⟨t, ht, old, hold, rfl⟩, ?_⟩
    simp only [Sym2.map_mk, Prod.map, hf]
  · rintro ⟨_, ⟨t, ht, side, hside, rfl⟩, rfl⟩
    refine ⟨_, List.mem_map_of_mem ht, _, List.mem_map_of_mem (f := Prod.map f f) hside, ?_⟩
    simp only [Sym2.map_mk, Prod.map, hf]

theorem mem_cornerKeys_of_mem_edgePairs {e : Sym2 (VertexKey K)} (he : e ∈ edgePairs ts)
    {k : VertexKey K} (hk : k ∈ e) : k ∈ cornerKeys ts := by
  obtain ⟨t, ht, side, hside, rfl⟩ := mem_edgePairs.1 he
  obtain ⟨hfst, hsnd⟩ := Triangle.mem_corners_of_mem_sides hside
  rcases Sym2.mem_iff.1 hk with rfl | rfl
  · exact ⟨t, ht, List.mem_map_of_mem hfst⟩
  · exact ⟨t, ht, List.mem_map_of_mem hsnd⟩

/-- A map under which no two keys meet keeps edges apart. -/
theorem injOn_map_edgePairs (hinj : Set.InjOn g (cornerKeys ts)) :
    Set.InjOn (Sym2.map g) (edgePairs ts) := by
  intro d hd e he heq
  replace hd : ∀ k ∈ d, k ∈ cornerKeys ts := fun k hk => mem_cornerKeys_of_mem_edgePairs hd hk
  replace he : ∀ k ∈ e, k ∈ cornerKeys ts := fun k hk => mem_cornerKeys_of_mem_edgePairs he hk
  induction d using Sym2.ind with
  | _ k l =>
    induction e using Sym2.ind with
    | _ k' l' =>
      rw [Sym2.ball] at hd he
      simp only [Sym2.map_mk, Sym2.eq_iff] at heq ⊢
      exact heq.imp (fun h => ⟨hinj hd.1 he.1 h.1, hinj hd.2 he.2 h.2⟩)
        fun h => ⟨hinj hd.1 he.2 h.1, hinj hd.2 he.1 h.2⟩

theorem card_edgePairs_map (hf : ∀ p, (f p).key = g p.key) (hinj : Set.InjOn g (cornerKeys ts)) :
    (edgePairs (ts.map (·.map f))).card = (edgePairs ts).card := by
  rw [edgePairs_map hf, Finset.card_image_of_injOn (injOn_map_edgePairs hinj)]

/-- A map under which no two keys meet keeps the number of triangles at a pair of keys. -/
theorem pairCount_map (hf : ∀ p, (f p).key = g p.key) (hinj : Set.InjOn g (cornerKeys ts))
    {e : Sym2 (VertexKey K)} (he : ∀ k ∈ e, k ∈ cornerKeys ts) :
    pairCount (ts.map (·.map f)) (e.map g) = pairCount ts e := by
  induction e using Sym2.ind with
  | _ k l =>
    rw [Sym2.ball] at he
    have hcorner {t : Triangle K} (ht : t ∈ ts) {k : VertexKey K} (hk : k ∈ cornerKeys ts) :
        (t.map f).hasCorner (g k) = t.hasCorner k := by
      rw [Bool.eq_iff_iff, ← Triangle.mem_keys_iff_hasCorner, ← Triangle.mem_keys_iff_hasCorner,
        t.keys_map hf, List.mem_map]
      exact ⟨fun ⟨l, hl, heq⟩ => hinj ⟨t, ht, hl⟩ hk heq ▸ hl, fun hk => ⟨k, hk, rfl⟩⟩
    rw [Sym2.map_mk, pairCount_mk, pairCount_mk, List.countP_map]
    refine List.countP_congr fun t ht => ?_
    rw [Function.comp_apply, hcorner ht he.1, hcorner ht he.2]

/-- **A vertex map under which no two keys meet keeps the number of irregular edges.** -/
theorem card_irregularPairs_map (hf : ∀ p, (f p).key = g p.key)
    (hinj : Set.InjOn g (cornerKeys ts)) :
    (irregularPairs (ts.map (·.map f))).card = (irregularPairs ts).card := by
  have hkeys : ∀ e ∈ edgePairs ts, ∀ k ∈ e, k ∈ cornerKeys ts := fun e he k hk =>
    mem_cornerKeys_of_mem_edgePairs he hk
  have himage : irregularPairs (ts.map (·.map f)) = (irregularPairs ts).image (Sym2.map g) := by
    rw [irregularPairs, edgePairs_map hf, Finset.filter_image, irregularPairs]
    congr 1
    refine Finset.filter_congr fun e he => ?_
    rw [pairCount_map hf hinj (hkeys e he)]
  rw [himage]
  exact Finset.card_image_of_injOn ((injOn_map_edgePairs hinj).mono (Finset.filter_subset _ _))

end Maps

end Isomesh
