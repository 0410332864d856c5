import Isomesh.Mesh.Adjacency
import Isomesh.Mesh.Relocate
import Mathlib.Data.List.Sigma
import Mathlib.Data.List.Perm.Basic

/-!
# The index of a mesh

What the index of a mesh says is stated by its answers: under each key it lists the triangles that have
the key, each once. An index built from the triangles says so, and adding and removing triangles keeps
it. So every question to a mesh has an answer in terms of its list of triangles alone.

* `Mesh.Coherent`: the invariant.
* `Mesh.Coherent.add`, `Mesh.Coherent.remove?`, `Mesh.Coherent.indexed`: kept by each operation.
* `Mesh.Coherent.length_trianglesAlong`: the number of triangles along an edge.
* `Mesh.Coherent.needsRepair_eq_false_iff`: when a mesh needs no repair.
* `Mesh.Built.coherent`: every mesh that can be built is coherent.
-/

set_option autoImplicit false

namespace Isomesh

/-! ## Arenas as lists -/

namespace Arena

variable {α : Type}

theorem nodup_ids (a : Arena α) : (a.toList.map Prod.fst).Nodup := by
  have hslots := List.nodup_zipIdx_map_snd a.slots.toList
  rw [List.Nodup, List.pairwise_map] at hslots
  rw [List.Nodup, List.pairwise_map, toList, List.pairwise_filterMap]
  refine hslots.imp fun {x y} hne u hu v hv heq => hne ?_
  obtain ⟨_, _, rfl⟩ := Option.map_eq_some_iff.1 hu
  obtain ⟨_, _, rfl⟩ := Option.map_eq_some_iff.1 hv
  exact congrArg Id.slot heq

theorem nodup_toList (a : Arena α) : a.toList.Nodup := a.nodup_ids.of_map

theorem toList_insert (a : Arena α) (v : α) :
    (a.insert v).2.toList.Perm (((a.insert v).1, v) :: a.toList) := by
  have hnew : ((a.insert v).1, v) ∉ a.toList := by
    rw [mem_toList, get?_insert_fst]
    simp
  rw [List.perm_ext_iff_of_nodup (nodup_toList _) (List.nodup_cons.2 ⟨hnew, a.nodup_toList⟩)]
  rintro ⟨id, w⟩
  rw [List.mem_cons, mem_toList, mem_toList, Prod.mk.injEq]
  by_cases hid : id = (a.insert v).1
  · subst hid
    rw [get?_insert_self, get?_insert_fst]
    simp [eq_comm]
  · rw [get?_insert_of_ne a v hid]
    simp [hid]

theorem values_insert (a : Arena α) (v : α) : (a.insert v).2.values.Perm (v :: a.values) :=
  (a.toList_insert v).map Prod.snd

theorem toList_remove? {a b : Arena α} {id : Id} {v : α} (h : a.remove? id = some (v, b)) :
    a.toList.Perm ((id, v) :: b.toList) := by
  obtain ⟨hold, hnew⟩ := get?_remove?_self h
  have hgone : (id, v) ∉ b.toList := by
    rw [mem_toList, hnew]
    simp
  rw [List.perm_ext_iff_of_nodup (nodup_toList _) (List.nodup_cons.2 ⟨hgone, b.nodup_toList⟩)]
  rintro ⟨other, w⟩
  rw [List.mem_cons, mem_toList, mem_toList, Prod.mk.injEq]
  by_cases hid : other = id
  · subst hid
    rw [hold, hnew]
    simp [eq_comm]
  · rw [get?_remove?_of_ne h hid]
    simp [hid]

theorem values_remove? {a b : Arena α} {id : Id} {v : α} (h : a.remove? id = some (v, b)) :
    a.values.Perm (v :: b.values) :=
  (toList_remove? h).map Prod.snd

end Arena

/-! ## What an index says -/

variable {K : Type} [Scalar K]

/-- Whether an index lists the triangles of an arena under their keys, each once. -/
structure VertexIndex.Lists (index : VertexIndex K) (arena : Arena (Triangle K)) : Prop where
  mem_iff : ∀ k id, id ∈ index.getD k [] ↔ ∃ t, arena.get? id = some t ∧ t.hasCorner k = true
  nodup : ∀ k, (index.getD k []).Nodup

namespace VertexIndex

variable {index : VertexIndex K} {arena : Arena (Triangle K)}

theorem getD_enlist (index : VertexIndex K) (id : TriangleId) (t : Triangle K) (k : VertexKey K) :
    (index.enlist id t).getD k [] =
      index.getD k [] ++ if t.hasCorner k = true then [id] else [] := by
  rw [Std.TreeMap.getD_eq_getD_getElem?, getElem?_enlist, Std.TreeMap.getD_eq_getD_getElem?]
  simp only [Triangle.mem_keys_iff_hasCorner]
  split <;> simp [withId]

theorem getD_strike (index : VertexIndex K) (id : TriangleId) (t : Triangle K) (k : VertexKey K) :
    (index.strike id t).getD k [] =
      if t.hasCorner k = true then (index.getD k []).filter (· ≠ id) else index.getD k [] := by
  rw [Std.TreeMap.getD_eq_getD_getElem?, getElem?_strike, Std.TreeMap.getD_eq_getD_getElem?]
  simp only [Triangle.mem_keys_iff_hasCorner]
  split
  · unfold withoutId
    split
    · rename_i hrest
      exact hrest.symm
    · rfl
  · rfl

theorem getD_foldl_enlist (es : List (TriangleId × Triangle K)) (index : VertexIndex K)
    (k : VertexKey K) : (es.foldl (fun ix (id, t) => enlist ix id t) index).getD k [] =
      index.getD k [] ++ (es.filter fun e => e.2.hasCorner k).map Prod.fst := by
  induction es generalizing index with
  | nil => simp
  | cons e es ih =>
    rw [List.foldl_cons, ih, getD_enlist, List.append_assoc, List.filter_cons]
    split <;> rfl

theorem getD_ofArena (arena : Arena (Triangle K)) (k : VertexKey K) :
    (ofArena arena).getD k [] = (arena.toList.filter fun e => e.2.hasCorner k).map Prod.fst := by
  rw [ofArena, getD_foldl_enlist]
  simp

theorem lists_ofArena (arena : Arena (Triangle K)) : (ofArena arena).Lists arena where
  mem_iff k id := by
    rw [getD_ofArena, List.mem_map]
    constructor
    · rintro ⟨⟨id, t⟩, he, rfl⟩
      obtain ⟨hmem, hk⟩ := List.mem_filter.1 he
      exact ⟨t, Arena.mem_toList.1 hmem, hk⟩
    · rintro ⟨t, ht, hk⟩
      exact ⟨(id, t), List.mem_filter.2 ⟨Arena.mem_toList.2 ht, hk⟩, rfl⟩
  nodup k := by
    rw [getD_ofArena]
    exact arena.nodup_ids.sublist (List.filter_sublist.map Prod.fst)

theorem Lists.enlist (h : index.Lists arena) (t : Triangle K) :
    (index.enlist (arena.insert t).1 t).Lists (arena.insert t).2 := by
  have hnew (k : VertexKey K) : (arena.insert t).1 ∉ index.getD k [] := by
    rw [h.mem_iff, Arena.get?_insert_fst]
    simp
  refine ⟨fun k id => ?_, fun k => ?_⟩
  · rw [getD_enlist, List.mem_append, h.mem_iff]
    by_cases hid : id = (arena.insert t).1
    · subst hid
      rw [Arena.get?_insert_self, Arena.get?_insert_fst]
      split <;> simp_all
    · rw [Arena.get?_insert_of_ne arena t hid]
      split <;> simp [hid]
  · rw [getD_enlist]
    split
    · exact List.nodup_append.2 ⟨h.nodup k, List.nodup_singleton _, by
        intro a ha b hb hab
        exact hnew k (List.mem_singleton.1 hb ▸ hab ▸ ha)⟩
    · rw [List.append_nil]
      exact h.nodup k

theorem Lists.strike (h : index.Lists arena) {id : TriangleId} {t : Triangle K}
    {rest : Arena (Triangle K)} (hrem : arena.remove? id = some (t, rest)) :
    (index.strike id t).Lists rest := by
  obtain ⟨hold, hnew⟩ := Arena.get?_remove?_self hrem
  refine ⟨fun k other => ?_, fun k => ?_⟩
  · rw [getD_strike]
    by_cases hid : other = id
    · subst hid
      rw [hnew]
      split
      · simp
      · rename_i hk
        rw [h.mem_iff, hold]
        simpa using hk
    · rw [Arena.get?_remove?_of_ne hrem hid]
      split
      · rw [List.mem_filter, h.mem_iff]
        simp [hid]
      · exact h.mem_iff k other
  · rw [getD_strike]
    split
    · exact (h.nodup k).filter _
    · exact h.nodup k

end VertexIndex

/-- The ends of a side are corners. -/
theorem Triangle.mem_corners_of_mem_sides {K : Type} {t : Triangle K} {e : Vec3 K × Vec3 K}
    (he : e ∈ t.sides) : e.1 ∈ t.corners ∧ e.2 ∈ t.corners := by
  simp only [sides, List.mem_cons, List.not_mem_nil, or_false] at he
  rcases he with rfl | rfl | rfl <;> simp [corners]

namespace Mesh

variable {m : Mesh K}

theorem mem_triangles_iff {t : Triangle K} : t ∈ m.triangles ↔ ∃ id, m.get? id = some t := by
  rw [triangles, Arena.values, List.mem_map]
  constructor
  · rintro ⟨⟨id, u⟩, he, rfl⟩
    exact ⟨id, Arena.mem_toList.1 he⟩
  · rintro ⟨id, ht⟩
    exact ⟨(id, t), Arena.mem_toList.2 ht, rfl⟩

/-- An edge is a side of a triangle. -/
theorem exists_of_mem_edges {e : Segment K} (he : e ∈ m.edges) : ∃ t ∈ m.triangles, e ∈ t.segments :=
  List.mem_flatMap.1 ((distinctOn_sublist _ _).subset he)

/-- Each side of a triangle has the key of an edge. -/
theorem exists_mem_edges {t : Triangle K} (ht : t ∈ m.triangles) {e : Segment K}
    (he : e ∈ t.segments) : ∃ first ∈ m.edges, first.key = e.key :=
  exists_mem_distinctOn (List.mem_flatMap.2 ⟨t, ht, he⟩)

/-! The identifiers of the triangles with a property, in the order of the mesh. -/

theorem mem_map_fst_filter {P : Triangle K → Bool} {id : TriangleId} :
    id ∈ (m.toList.filter fun e => P e.2).map Prod.fst ↔ ∃ t, m.get? id = some t ∧ P t = true := by
  rw [List.mem_map]
  constructor
  · rintro ⟨⟨id, t⟩, he, rfl⟩
    obtain ⟨hmem, hP⟩ := List.mem_filter.1 he
    exact ⟨t, Arena.mem_toList.1 hmem, hP⟩
  · rintro ⟨t, ht, hP⟩
    exact ⟨(id, t), List.mem_filter.2 ⟨Arena.mem_toList.2 ht, hP⟩, rfl⟩

theorem nodup_map_fst_filter (m : Mesh K) (P : Triangle K → Bool) :
    ((m.toList.filter fun e => P e.2).map Prod.fst).Nodup :=
  m.arena.nodup_ids.sublist (List.filter_sublist.map Prod.fst)

theorem length_map_fst_filter (m : Mesh K) (P : Triangle K → Bool) :
    ((m.toList.filter fun e => P e.2).map Prod.fst).length = m.triangles.countP P := by
  rw [List.length_map, ← List.countP_eq_length_filter, triangles, Arena.values, List.countP_map]
  rfl

/-- Identifiers without repetition that name the triangles with a property, in the order of the mesh. -/
theorem perm_of_mem_iff (m : Mesh K) {ids : List TriangleId} (hids : ids.Nodup) {P : Triangle K → Bool}
    (h : ∀ id, id ∈ ids ↔ ∃ t, m.get? id = some t ∧ P t = true) :
    ids.Perm ((m.toList.filter fun e => P e.2).map Prod.fst) := by
  rw [List.perm_ext_iff_of_nodup hids (m.nodup_map_fst_filter P)]
  exact fun id => (h id).trans mem_map_fst_filter.symm

/-- A removal takes away one triangle. -/
theorem of_remove?_eq_some {m rest : Mesh K} {id : TriangleId} {t : Triangle K}
    (h : m.remove? id = some (t, rest)) : m.get? id = some t ∧ rest.get? id = none ∧
      ∀ other ≠ id, rest.get? other = m.get? other := by
  obtain ⟨⟨t', arena⟩, harena, heq⟩ := Option.map_eq_some_iff.1 h
  cases heq
  obtain ⟨hold, hgone⟩ := Arena.get?_remove?_self harena
  exact ⟨hold, hgone, fun other hne => Arena.get?_remove?_of_ne harena hne⟩

/-- **What an identifier names can be taken out,** and nothing else can. -/
theorem exists_remove?_iff {m : Mesh K} {id : TriangleId} {t : Triangle K} :
    (∃ rest, m.remove? id = some (t, rest)) ↔ m.get? id = some t := by
  refine ⟨fun ⟨rest, hrem⟩ => (of_remove?_eq_some hrem).1, fun ht => ?_⟩
  cases hrem : m.remove? id with
  | none =>
    rw [remove?, Option.map_eq_none_iff, Arena.remove?_eq_none_iff] at hrem
    rw [get?, hrem] at ht
    cases ht
  | some result =>
    obtain ⟨u, rest⟩ := result
    obtain rfl : u = t := Option.some.inj ((of_remove?_eq_some hrem).1.symm.trans ht)
    exact ⟨rest, rfl⟩

/-- Whether the index of a mesh, if there is one, lists its triangles. -/
def Coherent (m : Mesh K) : Prop := ∀ index, m.index = some index → index.Lists m.arena

theorem coherent_of_index_eq_none (h : m.index = none) : m.Coherent := by
  intro index hindex
  rw [h] at hindex
  cases hindex

theorem index_extend {m : Mesh K} (h : m.index = none) (ts : List (Triangle K)) :
    (m.extend ts).index = none := by
  induction ts generalizing m with
  | nil => exact h
  | cons t ts ih =>
    refine ih (m := (m.add t).2) ?_
    show m.index.map _ = none
    rw [h, Option.map_none]

/-- A mesh made of a list of triangles has no index yet. -/
theorem coherent_ofTriangles (ts : List (Triangle K)) : (ofTriangles ts).Coherent :=
  coherent_of_index_eq_none (index_extend rfl ts)

namespace Coherent

theorem add (h : m.Coherent) (t : Triangle K) : (m.add t).2.Coherent := by
  intro index hindex
  obtain ⟨old, hold, rfl⟩ := Option.map_eq_some_iff.1 hindex
  exact (h old hold).enlist t

theorem remove? (h : m.Coherent) {id : TriangleId} {t : Triangle K} {rest : Mesh K}
    (hrem : m.remove? id = some (t, rest)) : rest.Coherent := by
  obtain ⟨⟨t', arena⟩, harena, heq⟩ := Option.map_eq_some_iff.1 hrem
  cases heq
  intro index hindex
  obtain ⟨old, hold, rfl⟩ := Option.map_eq_some_iff.1 hindex
  exact (h old hold).strike harena

/-- The index at hand, or the one that is built, lists the triangles. -/
theorem lookup (h : m.Coherent) : m.lookup.Lists m.arena := by
  unfold Mesh.lookup
  cases hindex : m.index with
  | none => exact VertexIndex.lists_ofArena m.arena
  | some index => exact h index hindex

theorem indexed (h : m.Coherent) : m.indexed.Coherent := by
  intro index hindex
  cases hindex
  exact h.lookup

/-! ## Questions to a coherent mesh -/

theorem mem_trianglesAt (h : m.Coherent) {p : Vec3 K} {id : TriangleId} :
    id ∈ m.trianglesAt p ↔ ∃ t, m.get? id = some t ∧ t.hasCorner p.key = true :=
  h.lookup.mem_iff p.key id

theorem nodup_trianglesAt (h : m.Coherent) (p : Vec3 K) : (m.trianglesAt p).Nodup :=
  h.lookup.nodup p.key

theorem mem_trianglesAlong (h : m.Coherent) {a b : Vec3 K} {id : TriangleId} :
    id ∈ m.trianglesAlong a b ↔
      ∃ t, m.get? id = some t ∧ t.hasCorner a.key = true ∧ t.hasCorner b.key = true := by
  rw [trianglesAlong, List.mem_filter, h.mem_trianglesAt]
  constructor
  · rintro ⟨⟨t, ht, ha⟩, hb⟩
    rw [ht] at hb
    exact ⟨t, ht, ha, hb⟩
  · rintro ⟨t, ht, ha, hb⟩
    rw [ht]
    exact ⟨⟨t, rfl, ha⟩, hb⟩

theorem nodup_trianglesAlong (h : m.Coherent) (a b : Vec3 K) : (m.trianglesAlong a b).Nodup :=
  (h.nodup_trianglesAt a).filter _

theorem length_trianglesAlong (h : m.Coherent) (a b : Vec3 K) :
    (m.trianglesAlong a b).length =
      m.triangles.countP fun t => t.hasCorner a.key && t.hasCorner b.key := by
  have hperm : (m.trianglesAlong a b).Perm
      ((m.toList.filter fun e => e.2.hasCorner a.key && e.2.hasCorner b.key).map Prod.fst) := by
    refine m.perm_of_mem_iff (h.nodup_trianglesAlong a b)
      (P := fun t => t.hasCorner a.key && t.hasCorner b.key) fun id => ?_
    simp only [h.mem_trianglesAlong, Bool.and_eq_true]
  exact hperm.length_eq.trans
    (m.length_map_fst_filter fun t => t.hasCorner a.key && t.hasCorner b.key)

theorem isRegular_iff (h : m.Coherent) (p q : Vec3 K) :
    m.isRegular (.between p q) = true ↔
      (m.triangles.countP fun t => t.hasCorner p.key && t.hasCorner q.key) = 2 := by
  rw [isRegular, decide_eq_true_eq, h.length_trianglesAlong, Segment.between]
  split
  · rfl
  · simp only [Bool.and_comm]

/-- A mesh needs no repair when both ends of each side belong to two triangles. -/
theorem needsRepair_eq_false_iff (h : m.Coherent) :
    m.needsRepair = false ↔ ∀ t ∈ m.triangles, ∀ e ∈ t.sides,
      (m.triangles.countP fun u => u.hasCorner e.1.key && u.hasCorner e.2.key) = 2 := by
  unfold needsRepair
  simp only [List.any_eq_false, Bool.not_eq_true, Bool.not_eq_false', Triangle.segments,
    List.forall_mem_map, h.indexed.isRegular_iff]
  rfl

theorem ensureManifold_eq_ok (h : m.Coherent) (hm : m.needsRepair = false) :
    m.ensureManifold = .ok () := by
  have hirregular : m.irregularEdges = 0 := by
    unfold irregularEdges
    rw [List.length_eq_zero_iff, List.filter_eq_nil_iff]
    intro s hs
    obtain ⟨t, ht, hst⟩ := exists_of_mem_edges hs
    obtain ⟨e, he, rfl⟩ := List.mem_map.1 hst
    have hregular := (h.indexed.isRegular_iff e.1 e.2).2 ((h.needsRepair_eq_false_iff.1 hm) t ht e he)
    rw [hregular]
    decide
  rw [ensureManifold, hirregular]
  rfl

end Coherent

/-! ## Meshes that can be built -/

/-- The meshes that operations on meshes lead to. -/
inductive Built : Mesh K → Prop where
  | empty : Built .empty
  | add {m : Mesh K} (t : Triangle K) : Built m → Built (m.add t).2
  | remove? {m rest : Mesh K} {id : TriangleId} {t : Triangle K} :
      Built m → m.remove? id = some (t, rest) → Built rest
  | indexed {m : Mesh K} : Built m → Built m.indexed

theorem Built.coherent {m : Mesh K} (h : m.Built) : m.Coherent := by
  induction h with
  | empty => exact coherent_of_index_eq_none rfl
  | add t _ ih => exact ih.add t
  | remove? _ hrem ih => exact ih.remove? hrem
  | indexed _ ih => exact ih.indexed

theorem Built.extend {m : Mesh K} (h : m.Built) (ts : List (Triangle K)) : (m.extend ts).Built := by
  induction ts generalizing m with
  | nil => exact h
  | cons t ts ih => exact ih (h.add t)

theorem built_ofTriangles (ts : List (Triangle K)) : (ofTriangles ts).Built := Built.empty.extend ts

end Mesh

end Isomesh
