import Mathlib
import Isomesh.Proofs.BalancedSides
import Isomesh.Proofs.EdgeCounts
import Isomesh.Proofs.FaceSets
import Isomesh.Proofs.MeshHistory
import Isomesh.Proofs.SimplifyManifold

/-!
# A collapse as a contraction

Where two triangles meet at every edge, the corners of each are apart and no two triangles have the same
corners, a mesh is a closed set of faces: the sets of keys of its triangles. On such a mesh the test before
a collapse is what a contraction of the edge asks for, as long as the midpoint is no vertex yet. So the mesh
stays of this kind and loses one vertex, three edges and two triangles, whatever the arithmetic makes of the
midpoint, and also where several umbrellas meet in a vertex.

* `Mesh.IsSurface`, `Mesh.Coherent.isSurface_iff`: the meshes, by their sets of faces.
* `Mesh.Coherent.faceSet_collapse`: a collapse contracts the set of faces.
* `Mesh.IsSurface.contractible`: the test before a collapse.
* `Mesh.collapse_keeps_topology`: the main result.
-/

set_option autoImplicit false

namespace Isomesh

variable {K : Type} [Scalar K]

/-! ## Faces -/

/-- The keys of the corners, in no order. -/
def Triangle.face (t : Triangle K) : Finset (VertexKey K) := t.keys.toFinset

theorem Triangle.mem_face {t : Triangle K} {k : VertexKey K} : k ∈ t.face ↔ t.hasCorner k = true := by
  rw [face, List.mem_toFinset, mem_keys_iff_hasCorner]

theorem Triangle.card_face_eq_three_iff {t : Triangle K} : t.face.card = 3 ↔ t.keys.Nodup :=
  (Multiset.toFinset_card_eq_card_iff_nodup (m := (t.keys : Multiset (VertexKey K)))).trans
    Multiset.coe_nodup

/-- The side across from a corner has the keys of the other corners. -/
theorem Triangle.erase_face {t : Triangle K} {place : Place} {k : VertexKey K}
    (hnodup : t.keys.Nodup) (hplace : t.placeOf k = some place) :
    t.face.erase k =
      (Segment.between (t.following place).1 (t.following place).2).pair.toFinset := by
  obtain ⟨hab, hac, hbc⟩ := nodup_keys_iff.1 hnodup
  ext l
  rw [Finset.mem_erase, mem_face, ← mem_keys_iff_hasCorner, Segment.pair_between, Sym2.mem_toFinset,
    Sym2.mem_iff]
  simp only [keys, corners, List.map_cons, List.map_nil, List.mem_cons, List.not_mem_nil, or_false]
  unfold placeOf at hplace
  split at hplace
  · cases hplace
    simp only [following]
    grind
  · split at hplace
    · cases hplace
      simp only [following]
      grind
    · split at hplace
      · cases hplace
        simp only [following]
        grind
      · cases hplace

/-- The faces of some triangles. -/
def faceSet (ts : List (Triangle K)) : FaceSet (VertexKey K) := (ts.map Triangle.face).toFinset

section Faces

variable {ts us : List (Triangle K)} {f : Finset (VertexKey K)} {k l : VertexKey K}

theorem mem_faceSet : f ∈ faceSet ts ↔ ∃ t ∈ ts, t.face = f := by simp [faceSet]

theorem card_faceSet (hts : (ts.map Triangle.face).Nodup) : (faceSet ts).card = ts.length := by
  rw [faceSet, List.toFinset_card_of_nodup hts, List.length_map]

/-- The faces along an edge are those of the triangles that have both keys. -/
theorem card_along_faceSet (hts : (ts.map Triangle.face).Nodup) :
    ((faceSet ts).along k l).card = pairCount ts s(k, l) := by
  have hlist : (faceSet ts).along k l =
      ((ts.map Triangle.face).filter fun f => k ∈ f ∧ l ∈ f).toFinset := by
    rw [List.toFinset_filter]
    simp only [decide_eq_true_eq]
    rfl
  rw [hlist, List.toFinset_card_of_nodup (hts.filter _), List.filter_map, List.length_map,
    ← List.countP_eq_length_filter, pairCount_mk]
  exact List.countP_congr fun t _ => by simp [Triangle.mem_face]

theorem along_faceSet_nonempty_iff :
    ((faceSet ts).along k l).Nonempty ↔ ∃ t ∈ ts, t.hasCorner k = true ∧ t.hasCorner l = true := by
  constructor
  · rintro ⟨f, hf⟩
    obtain ⟨hf, hk, hl⟩ := FaceSet.mem_along.1 hf
    obtain ⟨t, ht, rfl⟩ := mem_faceSet.1 hf
    exact ⟨t, ht, Triangle.mem_face.1 hk, Triangle.mem_face.1 hl⟩
  · rintro ⟨t, ht, hk, hl⟩
    exact ⟨t.face, FaceSet.mem_along.2
      ⟨mem_faceSet.2 ⟨t, ht, rfl⟩, Triangle.mem_face.2 hk, Triangle.mem_face.2 hl⟩⟩

/-- Different keys of one triangle are joined by a side. -/
theorem mem_edgePairs_of_ne (hkl : k ≠ l) {t : Triangle K} (ht : t ∈ ts) (hk : t.hasCorner k = true)
    (hl : t.hasCorner l = true) : s(k, l) ∈ edgePairs ts := by
  rw [← Triangle.mem_keys_iff_hasCorner, Triangle.keys, List.mem_map] at hk hl
  obtain ⟨p, hp, rfl⟩ := hk
  obtain ⟨q, hq, rfl⟩ := hl
  have hpq : p ≠ q := fun heq => hkl (heq ▸ rfl)
  rcases (t.mem_corners_iff hpq).1 ⟨hp, hq⟩ with hside | hside
  · exact mem_edgePairs.2 ⟨t, ht, _, hside, rfl⟩
  · exact mem_edgePairs.2 ⟨t, ht, _, hside, Sym2.eq_swap⟩

/-- The keys of a side of a triangle whose corners are apart. -/
theorem exists_of_mem_edgePairs (hnodup : ∀ t ∈ ts, t.keys.Nodup) (h : s(k, l) ∈ edgePairs ts) :
    k ≠ l ∧ ∃ t ∈ ts, t.hasCorner k = true ∧ t.hasCorner l = true := by
  obtain ⟨t, ht, side, hside, hpair⟩ := mem_edgePairs.1 h
  obtain ⟨hab, hac, hbc⟩ := Triangle.nodup_keys_iff.1 (hnodup t ht)
  have hne : side.1.key ≠ side.2.key := by
    simp only [Triangle.sides, List.mem_cons, List.not_mem_nil, or_false] at hside
    rcases hside with rfl | rfl | rfl
    · exact hab
    · exact hbc
    · exact hac.symm
  have hends : side.1.key ∈ t.keys ∧ side.2.key ∈ t.keys :=
    (Triangle.mem_corners_of_mem_sides hside).imp List.mem_map_of_mem List.mem_map_of_mem
  rw [Triangle.mem_keys_iff_hasCorner, Triangle.mem_keys_iff_hasCorner] at hends
  rcases Sym2.eq_iff.1 hpair with ⟨rfl, rfl⟩ | ⟨rfl, rfl⟩
  · exact ⟨hne, t, ht, hends⟩
  · exact ⟨hne.symm, t, ht, hends.symm⟩

end Faces

/-! ## Meshes -/

namespace Mesh

/-- Whether two triangles meet at every edge, the corners of each are apart, and no two triangles have the
same corners. -/
structure IsSurface (m : Mesh K) : Prop where
  isRegular : ∀ e ∈ m.edges, m.isRegular e = true
  nodup_keys : ∀ t ∈ m.triangles, t.keys.Nodup
  apart : m.triangles.Pairwise fun t u => ¬t.keys.Perm u.keys

instance (m : Mesh K) : Decidable m.IsSurface :=
  decidable_of_iff ((∀ e ∈ m.edges, m.isRegular e = true) ∧ (∀ t ∈ m.triangles, t.keys.Nodup) ∧
      m.triangles.Pairwise fun t u => ¬t.keys.Perm u.keys)
    ⟨fun ⟨hregular, hnodup, hapart⟩ => ⟨hregular, hnodup, hapart⟩,
      fun ⟨hregular, hnodup, hapart⟩ => ⟨hregular, hnodup, hapart⟩⟩

/-- Vertices less edges plus triangles. -/
def eulerCharacteristic (m : Mesh K) : ℤ := m.vertexCount - m.edges.length + m.triangleCount

variable {m : Mesh K} {s : Segment K} {waiting : EdgeSet K}

theorem apart_iff (hnodup : ∀ t ∈ m.triangles, t.keys.Nodup) :
    (m.triangles.Pairwise fun t u => ¬t.keys.Perm u.keys) ↔
      (m.triangles.map Triangle.face).Nodup := by
  rw [List.Nodup, List.pairwise_map]
  refine List.Pairwise.iff_of_mem fun {t u} ht hu => not_congr ?_
  exact ⟨List.toFinset_eq_of_perm _ _, List.perm_of_nodup_nodup_toFinset_eq (hnodup t ht) (hnodup u hu)⟩

/-- **The faces of a surface are closed**, and each belongs to one triangle. -/
theorem Coherent.isSurface_iff (h : m.Coherent) :
    m.IsSurface ↔ (m.triangles.map Triangle.face).Nodup ∧ (faceSet m.triangles).IsClosed := by
  constructor
  · rintro ⟨hregular, hnodup, hapart⟩
    have hfaces := (apart_iff hnodup).1 hapart
    refine ⟨hfaces, ⟨fun f hf => ?_, fun k l hkl hsome => ?_⟩⟩
    · obtain ⟨t, ht, rfl⟩ := mem_faceSet.1 hf
      exact Triangle.card_face_eq_three_iff.2 (hnodup t ht)
    · obtain ⟨t, ht, hk, hl⟩ := along_faceSet_nonempty_iff.1 hsome
      obtain ⟨e, he, hpair⟩ :=
        List.mem_map.1 (mem_pair_edges.2 (mem_edgePairs_of_ne hkl ht hk hl))
      have htwo := hregular e he
      rw [h.isRegular_eq, hpair, decide_eq_true_eq] at htwo
      rw [card_along_faceSet hfaces, htwo]
  · rintro ⟨hfaces, hclosed⟩
    have hnodup (t : Triangle K) (ht : t ∈ m.triangles) : t.keys.Nodup :=
      Triangle.card_face_eq_three_iff.1 (hclosed.card_face _ (mem_faceSet.2 ⟨t, ht, rfl⟩))
    refine ⟨fun e he => ?_, hnodup, (apart_iff hnodup).2 hfaces⟩
    obtain ⟨hne, hboth⟩ := exists_of_mem_edgePairs hnodup (mem_pair_edges.1 (List.mem_map_of_mem he))
    rw [h.isRegular_eq, decide_eq_true_eq, Segment.pair, ← card_along_faceSet hfaces]
    exact hclosed.card_along _ _ hne (along_faceSet_nonempty_iff.2 hboth)

namespace IsSurface

theorem nodup_map_face (hm : m.IsSurface) : (m.triangles.map Triangle.face).Nodup :=
  (apart_iff hm.nodup_keys).1 hm.apart

theorem triangleCount_eq (hm : m.IsSurface) : m.triangleCount = (faceSet m.triangles).card := by
  rw [card_faceSet hm.nodup_map_face, triangleCount_eq_length]

/-- The edges of a mesh are the edges of its faces. -/
theorem length_edges (hm : m.IsSurface) : m.edges.length = (faceSet m.triangles).edges.card := by
  have hinj : Function.Injective (Sym2.toFinset : Sym2 (VertexKey K) → Finset (VertexKey K)) :=
    fun d e heq => Sym2.ext fun k => by rw [← Sym2.mem_toFinset, ← Sym2.mem_toFinset, heq]
  have hedges : ((m.edges.map Segment.pair).map Sym2.toFinset).toFinset =
      (faceSet m.triangles).edges := by
    ext e
    rw [List.mem_toFinset, List.mem_map, FaceSet.mem_edges]
    simp only [mem_pair_edges]
    constructor
    · rintro ⟨d, hd, rfl⟩
      induction d using Sym2.ind with
      | _ k l =>
        obtain ⟨hne, t, ht, hk, hl⟩ := exists_of_mem_edgePairs hm.nodup_keys hd
        refine ⟨t.face, mem_faceSet.2 ⟨t, ht, rfl⟩, ?_, ?_⟩
        · simp [Sym2.toFinset_mk_eq, Finset.insert_subset_iff, Triangle.mem_face, hk, hl]
        · rw [Sym2.toFinset_mk_eq, Finset.card_pair hne]
    · rintro ⟨f, hf, hsub, hcard⟩
      obtain ⟨t, ht, rfl⟩ := mem_faceSet.1 hf
      obtain ⟨k, l, hne, rfl⟩ := Finset.card_eq_two.1 hcard
      refine ⟨s(k, l), mem_edgePairs_of_ne hne ht ?_ ?_, Sym2.toFinset_mk_eq⟩
      · exact Triangle.mem_face.1 (hsub (by simp))
      · exact Triangle.mem_face.1 (hsub (by simp))
  rw [← hedges, List.toFinset_card_of_nodup (m.nodup_pair_edges.map hinj), List.length_map,
    List.length_map]

end IsSurface

theorem length_vertices (m : Mesh K) : m.vertices.length = (faceSet m.triangles).vertices.card := by
  have hnodup : (m.vertices.map Vec3.key).Nodup := nodup_map_distinctOn _ _
  have hvertices : (m.vertices.map Vec3.key).toFinset = (faceSet m.triangles).vertices := by
    ext k
    rw [List.mem_toFinset, mem_keys_vertices_iff, FaceSet.mem_vertices]
    simp [mem_faceSet, Triangle.mem_face]
  rw [← hvertices, List.toFinset_card_of_nodup hnodup, List.length_map]

/-! ## Collapses -/

/-- A visit makes one mesh from another by taking a triangle out and adding one or none. -/
theorem Built.visit {c : Collapsing K} (h : c.mesh.Built) (s : Segment K) (id : TriangleId)
    (both : Bool) : (c.visit s id both).mesh.Built := by
  unfold Collapsing.visit
  cases hrem : c.mesh.remove? id with
  | none => exact h
  | some result =>
    cases both with
    | true => exact h.remove? hrem
    | false =>
      simp only [Bool.false_eq_true, if_false]
      split
      · exact h.remove? hrem
      · exact (h.remove? hrem).add _

theorem Built.foldl_visit {c : Collapsing K} (h : c.mesh.Built) (s : Segment K)
    (work : List (TriangleId × Bool)) :
    (work.foldl (fun c e => c.visit s e.1 e.2) c).mesh.Built := by
  induction work generalizing c with
  | nil => exact h
  | cons e work ih => exact ih (h.visit s e.1 e.2)

theorem Built.collapse (h : m.Built) (s : Segment K) (waiting : EdgeSet K) :
    (m.collapse s waiting).mesh.Built :=
  Built.foldl_visit (c := ⟨m, waiting, []⟩) h s (m.visits s)

theorem face_map_contract (s : Segment K) (t : Triangle K) :
    (t.map s.contract).face = t.face.image (FaceSet.merge s.lo.key s.hi.key s.mid.key) := by
  have hkey (p : Vec3 K) :
      (s.contract p).key = FaceSet.merge s.lo.key s.hi.key s.mid.key p.key := by
    rw [Segment.key_contract, FaceSet.merge]
    refine if_congr ?_ rfl rfl
    rw [Segment.hasEnd, Bool.or_eq_true, decide_eq_true_eq, decide_eq_true_eq]
    exact or_congr eq_comm eq_comm
  rw [Triangle.face, Triangle.keys_map hkey, Triangle.face]
  ext k
  simp

/-- The faceSet after a collapse, in some order. -/
theorem Coherent.perm_map_face (h : m.Coherent) (hm : m.IsSurface) (s : Segment K)
    (waiting : EdgeSet K) : ((m.collapse s waiting).mesh.triangles.map Triangle.face).Perm
      (((m.triangles.map Triangle.face).filter fun f => ¬(s.lo.key ∈ f ∧ s.hi.key ∈ f)).map
        (Finset.image (FaceSet.merge s.lo.key s.hi.key s.mid.key))) := by
  have hkept : (m.triangles.map Triangle.face).filter (fun f => ¬(s.lo.key ∈ f ∧ s.hi.key ∈ f)) =
      (m.triangles.filter fun t => !t.atBoth s).map Triangle.face := by
    rw [List.filter_map]
    refine congrArg _ (List.filter_congr fun t _ => ?_)
    simp only [Function.comp_apply, Triangle.mem_face, Triangle.atBoth, ← Bool.and_eq_true]
    cases t.hasCorner s.lo.key && t.hasCorner s.hi.key <;> rfl
  have hperm := (h.perm_map_contract waiting (s := s) fun t ht _ => hm.nodup_keys t ht).map
    Triangle.face
  rw [List.map_map] at hperm
  rw [hkept, List.map_map]
  exact hperm.trans (.of_eq (List.map_congr_left fun t _ => face_map_contract s t))

/-- **A collapse contracts the set of faces.** -/
theorem Coherent.faceSet_collapse (h : m.Coherent) (hm : m.IsSurface) (s : Segment K)
    (waiting : EdgeSet K) : faceSet (m.collapse s waiting).mesh.triangles =
      (faceSet m.triangles).contract s.lo.key s.hi.key s.mid.key := by
  rw [faceSet, List.toFinset_eq_of_perm _ _ (h.perm_map_face hm s waiting), FaceSet.contract, faceSet]
  ext f
  simp only [List.mem_toFinset, List.mem_map, List.mem_filter, Finset.mem_image, Finset.mem_filter,
    decide_eq_true_eq]

/-- A triangle at one end only, with the side across from there. -/
theorem Coherent.exists_outerSide (h : m.Coherent) {p q : Vec3 K} {f : Finset (VertexKey K)}
    (hnodup : ∀ t ∈ m.triangles, t.keys.Nodup) (hf : f ∈ faceSet m.triangles) (hp : p.key ∈ f)
    (hq : q.key ∉ f) :
    ∃ e ∈ m.outerSides p q, f.erase p.key = (Segment.between e.1 e.2).pair.toFinset := by
  obtain ⟨t, ht, rfl⟩ := mem_faceSet.1 hf
  obtain ⟨place, hplace⟩ := Option.isSome_iff_exists.1 (Triangle.mem_face.1 hp)
  have hcorner : t.hasCorner q.key = false := by
    rw [← Bool.not_eq_true, ← Triangle.mem_face]
    exact hq
  exact ⟨t.following place, h.following_mem_outerSides ht hplace hcorner,
    Triangle.erase_face (hnodup t ht) hplace⟩

/-- **The test before a collapse is what a contraction asks for**, if the midpoint is no vertex. -/
theorem IsSurface.contractible (hm : m.IsSurface) (h : m.Coherent)
    (hs : s.key ∈ m.edges.map Segment.key) (hcan : m.canCollapse s = true)
    (hmid : s.mid.key ∉ m.vertices.map Vec3.key) :
    (faceSet m.triangles).Contractible s.lo.key s.hi.key s.mid.key := by
  obtain ⟨e, he, hkey⟩ := List.mem_map.1 hs
  have hpair : s(s.lo.key, s.hi.key) ∈ edgePairs m.triangles :=
    mem_pair_edges.1 (List.mem_map.2 ⟨e, he, Segment.pair_inj.2 hkey⟩)
  obtain ⟨hne, t, ht, hlo, hhi⟩ := exists_of_mem_edgePairs hm.nodup_keys hpair
  refine ⟨(h.isSurface_iff.1 hm).2, hne, ?_, ?_, ?_, ?_⟩
  · exact ⟨t.face, mem_faceSet.2 ⟨t, ht, rfl⟩, Triangle.mem_face.2 hlo, Triangle.mem_face.2 hhi⟩
  · intro f hf hk
    obtain ⟨t, ht, rfl⟩ := mem_faceSet.1 hf
    exact hmid (mem_keys_vertices_iff.2 ⟨t, ht, Triangle.mem_face.1 hk⟩)
  · intro k hk hk' hatLo hatHi
    have haway : s.hasEnd k = false := by simp [Segment.hasEnd, hk.symm, hk'.symm]
    obtain ⟨t, ht, hboth, hkt⟩ := (h.canCollapse_iff.1 hcan).1 k haway
      (along_faceSet_nonempty_iff.1 hatLo) (along_faceSet_nonempty_iff.1 hatHi)
    obtain ⟨hlo, hhi⟩ := (Bool.and_eq_true ..).mp hboth
    exact ⟨t.face, mem_faceSet.2 ⟨t, ht, rfl⟩, ⟨Triangle.mem_face.2 hlo, Triangle.mem_face.2 hhi⟩,
      Triangle.mem_face.2 hkt⟩
  · intro f hf g hg hlo hhi hhi' hlo' heq
    obtain ⟨e, he, hf⟩ := h.exists_outerSide hm.nodup_keys hf hlo hhi
    obtain ⟨e', he', hg⟩ := h.exists_outerSide hm.nodup_keys hg hhi' hlo'
    refine outerSides_apart hcan he he' (Segment.pair_inj.1 ?_)
    exact Sym2.ext fun k => by rw [← Sym2.mem_toFinset, ← Sym2.mem_toFinset, ← hf, ← hg, heq]

/-- A contraction keeps the faces of different triangles different. -/
theorem IsSurface.collapse (hm : m.IsSurface) (h : m.Coherent)
    (hcontractible : (faceSet m.triangles).Contractible s.lo.key s.hi.key s.mid.key) :
    (m.collapse s waiting).mesh.IsSurface := by
  rw [(h.collapse s waiting).isSurface_iff, h.faceSet_collapse hm]
  refine ⟨?_, hcontractible.isClosed_contract⟩
  rw [(h.perm_map_face hm s waiting).nodup_iff]
  refine List.Nodup.map_on (fun f hf g hg heq => ?_) (hm.nodup_map_face.filter _)
  have hin {f : Finset (VertexKey K)} (hf : f ∈ (m.triangles.map Triangle.face).filter
      fun f => ¬(s.lo.key ∈ f ∧ s.hi.key ∈ f)) :
      f ∈ ((faceSet m.triangles).filter fun f => ¬(s.lo.key ∈ f ∧ s.hi.key ∈ f) :
        FaceSet (VertexKey K)) := by
    obtain ⟨hf, hone⟩ := List.mem_filter.1 hf
    exact Finset.mem_filter.2 ⟨List.mem_toFinset.2 hf, of_decide_eq_true hone⟩
  exact hcontractible.injOn_merge (Finset.mem_coe.2 (hin hf)) (Finset.mem_coe.2 (hin hg)) heq

/-- **A collapse keeps the topology of a surface.** Where two triangles meet at every edge, the corners of
each are apart and no two triangles have the same corners, an edge that passes the test and whose midpoint
is no vertex can be collapsed: all this holds of the mesh afterwards. It has two triangles, three edges and
one vertex less. -/
theorem collapse_keeps_topology (hbuilt : m.Built) (hm : m.IsSurface)
    (hs : s.key ∈ m.edges.map Segment.key) (hcan : m.canCollapse s = true)
    (hmid : s.mid.key ∉ m.vertices.map Vec3.key) (waiting : EdgeSet K) :
    let after := (m.collapse s waiting).mesh
    after.IsSurface ∧ after.triangleCount + 2 = m.triangleCount ∧
      after.edges.length + 3 = m.edges.length ∧ after.vertices.length + 1 = m.vertices.length ∧
      after.vertexCount + 1 = m.vertexCount ∧ after.eulerCharacteristic = m.eulerCharacteristic := by
  intro after
  have h := hbuilt.coherent
  have hcontractible := hm.contractible h hs hcan hmid
  have hafter : after.IsSurface := hm.collapse h hcontractible
  have hafterBuilt : after.Built := hbuilt.collapse s waiting
  have hfaces : faceSet after.triangles = _ := h.faceSet_collapse hm s waiting
  have htriangles : after.triangleCount + 2 = m.triangleCount := by
    rw [hafter.triangleCount_eq, hm.triangleCount_eq, hfaces, hcontractible.card_add]
  have hedges : after.edges.length + 3 = m.edges.length := by
    rw [hafter.length_edges, hm.length_edges, hfaces, hcontractible.card_edges_add]
  have hvertices : after.vertices.length + 1 = m.vertices.length := by
    rw [length_vertices, length_vertices, hfaces, hcontractible.card_vertices_add]
  have hcount : after.vertexCount + 1 = m.vertexCount := by
    rw [vertexCount_eq_length_vertices hafterBuilt.coherent hafterBuilt.filled,
      vertexCount_eq_length_vertices h hbuilt.filled, hvertices]
  refine ⟨hafter, htriangles, hedges, hvertices, hcount, ?_⟩
  rw [eulerCharacteristic, eulerCharacteristic]
  omega

end Mesh

/-- Two octahedra with a vertex in common. -/
def twoOctahedra : Mesh ℚ := .ofTriangles (octahedron ++ octahedron.map (·.map (· + ⟨4, 0, 0⟩)))

/-- An edge at the common vertex, where two umbrellas meet. -/
theorem twoOctahedra_keep_topology : let s := Segment.between ⟨0, 2, 0⟩ ⟨2, 0, 0⟩
    twoOctahedra.IsSurface ∧ s.key ∈ twoOctahedra.edges.map Segment.key ∧
      twoOctahedra.canCollapse s = true ∧ s.mid.key ∉ twoOctahedra.vertices.map Vec3.key ∧
      (twoOctahedra.collapse s ∅).mesh.IsSurface ∧
      (twoOctahedra.collapse s ∅).mesh.triangleCount = 14 ∧
      (twoOctahedra.collapse s ∅).mesh.edges.length = 21 ∧
      (twoOctahedra.collapse s ∅).mesh.vertexCount = 10 ∧
      (twoOctahedra.collapse s ∅).mesh.eulerCharacteristic = 3 := by
  intro s
  have hsurface : twoOctahedra.IsSurface := by decide +kernel
  have hs : s.key ∈ twoOctahedra.edges.map Segment.key := by decide +kernel
  have hcan : twoOctahedra.canCollapse s = true := by decide +kernel
  have hmid : s.mid.key ∉ twoOctahedra.vertices.map Vec3.key := by decide +kernel
  obtain ⟨hafter, htriangles, hedges, -, hvertices, heuler⟩ :=
    Mesh.collapse_keeps_topology (m := twoOctahedra) (Mesh.built_ofTriangles _) hsurface hs hcan hmid ∅
  have hcounts : twoOctahedra.triangleCount = 16 ∧ twoOctahedra.edges.length = 24 ∧
      twoOctahedra.vertexCount = 11 ∧ twoOctahedra.eulerCharacteristic = 3 := by decide +kernel
  exact ⟨hsurface, hs, hcan, hmid, hafter, by omega, by omega, by omega, heuler.trans hcounts.2.2.2⟩

end Isomesh
