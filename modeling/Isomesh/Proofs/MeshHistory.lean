import Isomesh.Proofs.MeshIndex

/-!
# The index over every history

A mesh begins empty; triangles are added and taken out in any order, and questions come in between,
which build the index or read the one that is there. A ledger keeps the identifiers that were given out
and those that were to be taken out while they were live, and tells by itself which are live: it does not
ask the mesh. Whatever has happened, the mesh answers every question about its vertices and edges from what
the ledger calls live, and gives back a triangle when its identifier is live and only then.

* `Mesh.Ledger.isLive`, `Mesh.Ledger.Live`: what the ledger says of an identifier.
* `Mesh.Ledger.Sound`: the invariant, kept by each command.
* `Mesh.Ledger.Sound.exists_remove?_iff`: removals by the mesh against those by the ledger.
* `Mesh.vertexCount_eq_length_vertices`: entries of the index against vertices of the triangles.
* `Mesh.index_coherent_over_history`: the main result.
-/

set_option autoImplicit false

namespace Isomesh

namespace Arena

variable {α : Type}

theorem next_insert (a : Arena α) (v : α) : (a.insert v).2.next = a.next + 1 := by
  unfold insert
  split <;> rfl

theorem next_remove? {a b : Arena α} {id : Id} {v : α} (h : a.remove? id = some (v, b)) :
    b.next = a.next := by
  unfold remove? at h
  split at h
  · cases h
  · cases h
    rfl

end Arena

variable {K : Type} [Scalar K]

theorem Mesh.next_remove? {m rest : Mesh K} {id : TriangleId} {t : Triangle K}
    (h : m.remove? id = some (t, rest)) : rest.arena.next = m.arena.next := by
  obtain ⟨⟨t', arena⟩, harena, heq⟩ := Option.map_eq_some_iff.1 h
  cases heq
  exact Arena.next_remove? harena

/-! ## Entries -/

/-- Whether every key that an index knows has a triangle. -/
def VertexIndex.Filled (index : VertexIndex K) : Prop := ∀ k : VertexKey K, index[k]? ≠ some []

namespace VertexIndex

theorem Filled.enlist {index : VertexIndex K} (h : index.Filled) (id : TriangleId)
    (t : Triangle K) : (index.enlist id t).Filled := by
  intro k
  rw [getElem?_enlist]
  split
  · simp [withId]
  · exact h k

theorem Filled.strike {index : VertexIndex K} (h : index.Filled) (id : TriangleId)
    (t : Triangle K) : (index.strike id t).Filled := by
  intro k
  rw [getElem?_strike]
  split
  · unfold withoutId
    split
    · simp
    · rename_i hrest
      simpa using hrest
  · exact h k

theorem Filled.foldl_enlist {index : VertexIndex K} (h : index.Filled)
    (es : List (TriangleId × Triangle K)) :
    (es.foldl (fun ix (id, t) => ix.enlist id t) index).Filled := by
  induction es generalizing index with
  | nil => exact h
  | cons e es ih => exact ih (h.enlist e.1 e.2)

theorem filled_ofArena (arena : Arena (Triangle K)) : (ofArena arena).Filled := by
  have hempty : (∅ : VertexIndex K).Filled := by simp [Filled]
  exact hempty.foldl_enlist arena.toList

/-- An index without empty entries knows the keys of its triangles and no others. -/
theorem Lists.mem_iff_exists {index : VertexIndex K} {arena : Arena (Triangle K)}
    (h : index.Lists arena) (hfilled : index.Filled) (k : VertexKey K) :
    k ∈ index ↔ ∃ id t, arena.get? id = some t ∧ t.hasCorner k = true := by
  constructor
  · intro hk
    obtain ⟨id, hid⟩ : ∃ id, id ∈ index.getD k [] := by
      refine List.exists_mem_of_ne_nil _ fun hnil => hfilled k ?_
      rw [Std.TreeMap.getElem?_eq_some_getD hk, hnil]
    exact ⟨id, (h.mem_iff k id).1 hid⟩
  · rintro ⟨id, ht⟩
    have hid := (h.mem_iff k id).2 ht
    by_contra hk
    rw [Std.TreeMap.getD_eq_fallback hk] at hid
    cases hid

end VertexIndex

namespace Mesh

variable {m : Mesh K}

/-- Whether the index of a mesh, if there is one, has no empty entries. -/
def Filled (m : Mesh K) : Prop := ∀ index, m.index = some index → index.Filled

namespace Filled

theorem add (h : m.Filled) (t : Triangle K) : (m.add t).2.Filled := by
  intro index hindex
  obtain ⟨old, hold, rfl⟩ := Option.map_eq_some_iff.1 hindex
  exact (h old hold).enlist _ t

theorem remove? (h : m.Filled) {id : TriangleId} {t : Triangle K} {rest : Mesh K}
    (hrem : m.remove? id = some (t, rest)) : rest.Filled := by
  obtain ⟨⟨t', arena⟩, -, heq⟩ := Option.map_eq_some_iff.1 hrem
  cases heq
  intro index hindex
  obtain ⟨old, hold, rfl⟩ := Option.map_eq_some_iff.1 hindex
  exact (h old hold).strike id t

theorem lookup (h : m.Filled) : m.lookup.Filled := by
  unfold Mesh.lookup
  cases hindex : m.index with
  | none => exact VertexIndex.filled_ofArena m.arena
  | some index => exact h index hindex

theorem indexed (h : m.Filled) : m.indexed.Filled := by
  intro index hindex
  cases hindex
  exact h.lookup

end Filled

theorem Built.filled (h : m.Built) : m.Filled := by
  induction h with
  | empty =>
    intro index hindex
    cases hindex
  | add t _ ih => exact ih.add t
  | remove? _ hrem ih => exact ih.remove? hrem
  | indexed _ ih => exact ih.indexed

theorem mem_keys_vertices_iff {k : VertexKey K} :
    k ∈ m.vertices.map Vec3.key ↔ ∃ t ∈ m.triangles, t.hasCorner k = true := by
  simp only [← Triangle.mem_keys_iff_hasCorner, Triangle.keys, List.mem_map]
  constructor
  · rintro ⟨p, hp, rfl⟩
    obtain ⟨t, ht, hpt⟩ := List.mem_flatMap.1 ((distinctOn_sublist _ _).subset hp)
    exact ⟨t, ht, p, hpt, rfl⟩
  · rintro ⟨t, ht, p, hp, rfl⟩
    exact exists_mem_distinctOn (List.mem_flatMap.2 ⟨t, ht, hp⟩)

/-- There are as many entries in the index as vertices of triangles. -/
theorem vertexCount_eq_length_vertices (hcoherent : m.Coherent) (hfilled : m.Filled) :
    m.vertexCount = m.vertices.length := by
  have hperm : m.lookup.keys.Perm (m.vertices.map Vec3.key) := by
    have hvertices : (m.vertices.map Vec3.key).Nodup := nodup_map_distinctOn _ _
    rw [List.perm_ext_iff_of_nodup Std.TreeMap.nodup_keys hvertices]
    intro k
    rw [Std.TreeMap.mem_keys, hcoherent.lookup.mem_iff_exists hfilled.lookup,
      mem_keys_vertices_iff]
    simp only [mem_triangles_iff]
    exact ⟨fun ⟨id, t, ht, hk⟩ => ⟨t, ⟨id, ht⟩, hk⟩, fun ⟨t, ⟨id, ht⟩, hk⟩ => ⟨id, t, ht, hk⟩⟩
  rw [vertexCount, ← Std.TreeMap.length_keys, hperm.length_eq, List.length_map]

/-! ## Histories -/

/-- What can happen to a mesh. -/
inductive Command (K : Type) where
  | add (t : Triangle K)
  | extend (ts : List (Triangle K))
  /-- Takes out what an identifier names. It may never have been given out, or name nothing any more. -/
  | remove (id : TriangleId)
  /-- A question about a vertex or an edge, or for the number of vertices. -/
  | ask
  /-- A question about all edges. -/
  | inspect

/-- A mesh with an account of what has happened to it. -/
structure Ledger (K : Type) [Scalar K] where
  mesh : Mesh K
  /-- Every triangle that was added, under the identifier that was given out for it. -/
  added : List (TriangleId × Triangle K)
  /-- The identifiers that were to be taken out while they were live. -/
  removed : List TriangleId

namespace Ledger

/-- The start of every history. -/
def empty : Ledger K := ⟨.empty, [], []⟩

/-- Adds a triangle and notes its identifier. -/
def add (r : Ledger K) (t : Triangle K) : Ledger K :=
  { r with mesh := (r.mesh.add t).2, added := ((r.mesh.add t).1, t) :: r.added }

/-- Adds triangles in their order and notes their identifiers. -/
def extend (r : Ledger K) (ts : List (Triangle K)) : Ledger K :=
  { ts.foldl add r with mesh := r.mesh.extend ts }

/-- Whether an identifier was given out and has not been taken out, by the account alone. -/
def isLive (r : Ledger K) (id : TriangleId) : Bool :=
  (r.added.map Prod.fst).contains id && !r.removed.contains id

/-- Takes out what an identifier names, and notes the identifier if the account has it as live. -/
def remove (r : Ledger K) (id : TriangleId) : Ledger K :=
  { r with
    mesh := (r.mesh.remove? id).elim r.mesh Prod.snd
    removed := if r.isLive id then id :: r.removed else r.removed }

/-- Carries out a command. -/
def apply (r : Ledger K) : Command K → Ledger K
  | .add t => r.add t
  | .extend ts => r.extend ts
  | .remove id => r.remove id
  | .ask => { r with mesh := r.mesh.indexed }
  | .inspect => { r with mesh := r.mesh.inspected }

/-- What a sequence of commands leads to. -/
def after (history : List (Command K)) : Ledger K := history.foldl apply empty

/-- Whether a triangle was added under an identifier and has not been taken out. -/
def Live (r : Ledger K) (id : TriangleId) (t : Triangle K) : Prop :=
  (id, t) ∈ r.added ∧ id ∉ r.removed

/-- What holds in every history. -/
structure Sound (r : Ledger K) : Prop where
  coherent : r.mesh.Coherent
  filled : r.mesh.Filled
  /-- No identifier is given out twice. -/
  nodup : (r.added.map Prod.fst).Nodup
  serial_lt : ∀ id ∈ r.added.map Prod.fst, id.serial < r.mesh.arena.next
  removed_subset : r.removed ⊆ r.added.map Prod.fst
  get?_iff : ∀ id t, r.mesh.get? id = some t ↔ r.Live id t

theorem sound_empty : (empty : Ledger K).Sound where
  coherent := coherent_of_index_eq_none rfl
  filled := by
    intro index hindex
    cases hindex
  nodup := List.nodup_nil
  serial_lt := by simp [empty]
  removed_subset := List.nil_subset _
  get?_iff id t := by
    have hnone : (Mesh.empty : Mesh K).get? id = none := Arena.get?_empty id
    simp [empty, Live, hnone]

variable {r : Ledger K}

/-- The identifier of a new triangle has never been given out. -/
theorem Sound.fresh (h : r.Sound) (t : Triangle K) : (r.mesh.add t).1 ∉ r.added.map Prod.fst := by
  intro hmem
  have hlt := h.serial_lt _ hmem
  have hserial : (r.mesh.add t).1.serial = r.mesh.arena.next := r.mesh.arena.insert_fst_serial t
  omega

theorem Sound.add (h : r.Sound) (t : Triangle K) : (r.add t).Sound where
  coherent := h.coherent.add t
  filled := h.filled.add t
  nodup := List.nodup_cons.2 ⟨h.fresh t, h.nodup⟩
  serial_lt := by
    have hnext : (r.mesh.add t).2.arena.next = r.mesh.arena.next + 1 := r.mesh.arena.next_insert t
    have hserial : (r.mesh.add t).1.serial = r.mesh.arena.next := r.mesh.arena.insert_fst_serial t
    intro id hid
    show id.serial < (r.mesh.add t).2.arena.next
    rcases List.mem_cons.1 hid with heq | hid
    · have : id = (r.mesh.add t).1 := heq
      rw [this]
      omega
    · have := h.serial_lt id hid
      omega
  removed_subset := List.subset_cons_of_subset _ h.removed_subset
  get?_iff id u := by
    show (r.mesh.add t).2.get? id = some u ↔
      (id, u) ∈ ((r.mesh.add t).1, t) :: r.added ∧ id ∉ r.removed
    rw [List.mem_cons, Prod.mk.injEq]
    by_cases hid : id = (r.mesh.add t).1
    · subst hid
      have hself : (r.mesh.add t).2.get? (r.mesh.add t).1 = some t :=
        r.mesh.arena.get?_insert_self t
      have hadded : ((r.mesh.add t).1, u) ∉ r.added := fun hu => h.fresh t (List.mem_map_of_mem hu)
      have hremoved : (r.mesh.add t).1 ∉ r.removed := fun hr => h.fresh t (h.removed_subset hr)
      rw [hself, Option.some.injEq]
      simp only [hadded, hremoved, true_and, or_false, not_false_eq_true, and_true]
      exact eq_comm
    · have hother : (r.mesh.add t).2.get? id = r.mesh.get? id :=
        r.mesh.arena.get?_insert_of_ne t hid
      rw [hother, h.get?_iff, Live]
      simp only [hid, false_and, false_or]

theorem Sound.foldl_add (h : r.Sound) (ts : List (Triangle K)) : (ts.foldl Ledger.add r).Sound := by
  induction ts generalizing r with
  | nil => exact h
  | cons t ts ih => exact ih (h.add t)

/-- Adding triangles together is adding them one by one. -/
theorem extend_eq_foldl (r : Ledger K) (ts : List (Triangle K)) : r.extend ts = ts.foldl add r := by
  have hmesh : r.mesh.extend ts = (ts.foldl add r).mesh :=
    List.foldl_hom Ledger.mesh fun _ _ => rfl
  rw [extend, hmesh]

theorem Sound.extend (h : r.Sound) (ts : List (Triangle K)) : (r.extend ts).Sound :=
  r.extend_eq_foldl ts ▸ h.foldl_add ts

theorem isLive_iff {id : TriangleId} : r.isLive id = true ↔ ∃ t, r.Live id t := by
  simp [isLive, Live]

/-- **The mesh gives back the live triangles and no others.** -/
theorem Sound.exists_remove?_iff (h : r.Sound) {id : TriangleId} {t : Triangle K} :
    (∃ rest, r.mesh.remove? id = some (t, rest)) ↔ r.Live id t :=
  Mesh.exists_remove?_iff.trans (h.get?_iff id t)

/-- What is not live cannot be taken out, so nothing happens. -/
theorem Sound.remove_of_not_isLive (h : r.Sound) {id : TriangleId} (hlive : r.isLive id = false) :
    r.remove id = r := by
  have hnone : r.mesh.remove? id = none := by
    by_contra hsome
    obtain ⟨⟨t, rest⟩, hrem⟩ := Option.ne_none_iff_exists'.1 hsome
    have htrue := isLive_iff.2 ⟨t, h.exists_remove?_iff.1 ⟨rest, hrem⟩⟩
    exact Bool.noConfusion (hlive.symm.trans htrue)
  rw [Ledger.remove, hnone, hlive]
  rfl

theorem Sound.remove_of_isLive (h : r.Sound) {id : TriangleId} (hlive : r.isLive id = true) :
    (r.remove id).Sound := by
  obtain ⟨t, ht⟩ := isLive_iff.1 hlive
  obtain ⟨rest, hrem⟩ := h.exists_remove?_iff.2 ht
  obtain ⟨-, hgone, hothers⟩ := of_remove?_eq_some hrem
  rw [Ledger.remove, hrem, hlive]
  refine ⟨h.coherent.remove? hrem, h.filled.remove? hrem, h.nodup, ?_, ?_, fun other u => ?_⟩
  · intro other hother
    show other.serial < rest.arena.next
    rw [next_remove? hrem]
    exact h.serial_lt other hother
  · exact List.cons_subset.2 ⟨List.mem_map_of_mem ht.1, h.removed_subset⟩
  · show rest.get? other = some u ↔ (other, u) ∈ r.added ∧ other ∉ id :: r.removed
    rw [List.mem_cons, not_or]
    by_cases hid : other = id
    · subst hid
      simp [hgone]
    · rw [hothers other hid]
      simp only [hid, not_false_eq_true, true_and]
      exact h.get?_iff other u

theorem Sound.remove (h : r.Sound) (id : TriangleId) : (r.remove id).Sound := by
  cases hlive : r.isLive id with
  | true => exact h.remove_of_isLive hlive
  | false => exact (h.remove_of_not_isLive hlive).symm ▸ h

/-- A look at the mesh changes nothing but its index. -/
theorem Sound.indexed (h : r.Sound) : ({ r with mesh := r.mesh.indexed } : Ledger K).Sound :=
  ⟨h.coherent.indexed, h.filled.indexed, h.nodup, h.serial_lt, h.removed_subset, h.get?_iff⟩

theorem Sound.inspected (h : r.Sound) : ({ r with mesh := r.mesh.inspected } : Ledger K).Sound := by
  unfold Mesh.inspected
  split
  · exact h
  · exact h.indexed

/-- **Each command keeps the invariant.** -/
theorem Sound.apply (h : r.Sound) (c : Command K) : (r.apply c).Sound := by
  cases c with
  | add t => exact h.add t
  | extend ts => exact h.extend ts
  | remove id => exact h.remove id
  | ask => exact h.indexed
  | inspect => exact h.inspected

/-- So does a list of commands. -/
theorem Sound.foldl_apply (h : r.Sound) (cs : List (Command K)) : (cs.foldl Ledger.apply r).Sound := by
  induction cs generalizing r with
  | nil => exact h
  | cons c cs ih => exact ih (h.apply c)

/-- **So does every history.** -/
theorem sound_after (history : List (Command K)) : (after history).Sound :=
  sound_empty.foldl_apply history

end Ledger

/-- **The index is coherent over every history.** After any sequence of additions, removals and
questions no identifier has been given out twice, and the mesh knows exactly the live ones: those that
were given out and that no command has named for removal since. It finds their triangles, and gives each
back when it is to be removed. Under each vertex it lists the live triangles with that corner, each once,
and none that was taken out; a key without triangles has no entry. So there are as many entries as
vertices, and an edge has the same triangles from either end. -/
theorem index_coherent_over_history (history : List (Command K)) :
    let r := Ledger.after history
    let m := r.mesh
    (r.added.map Prod.fst).Nodup ∧
    (∀ id t, m.get? id = some t ↔ r.Live id t) ∧
    (∀ id t, (∃ rest, m.remove? id = some (t, rest)) ↔ r.Live id t) ∧
    (∀ p, (m.trianglesAt p).Nodup ∧
      (∀ id, id ∈ m.trianglesAt p ↔ ∃ t, r.Live id t ∧ t.hasCorner p.key = true) ∧
      ∀ id ∈ r.removed, id ∉ m.trianglesAt p) ∧
    (∀ k, k ∈ m.lookup ↔ ∃ id t, r.Live id t ∧ t.hasCorner k = true) ∧
    m.vertexCount = m.vertices.length ∧
    ∀ a b, (m.trianglesAlong a b).Nodup ∧ (m.trianglesAlong a b).Perm (m.trianglesAlong b a) ∧
      ∀ id, id ∈ m.trianglesAlong a b ↔
        ∃ t, r.Live id t ∧ t.hasCorner a.key = true ∧ t.hasCorner b.key = true := by
  intro r m
  have hr : r.Sound := Ledger.sound_after history
  have hat (p : Vec3 K) (id : TriangleId) :
      id ∈ m.trianglesAt p ↔ ∃ t, r.Live id t ∧ t.hasCorner p.key = true := by
    simp only [hr.coherent.mem_trianglesAt, hr.get?_iff, m]
  have halong (a b : Vec3 K) (id : TriangleId) : id ∈ m.trianglesAlong a b ↔
      ∃ t, r.Live id t ∧ t.hasCorner a.key = true ∧ t.hasCorner b.key = true := by
    simp only [hr.coherent.mem_trianglesAlong, hr.get?_iff, m]
  have hnodup := hr.coherent.nodup_trianglesAlong
  refine ⟨hr.nodup, hr.get?_iff, fun id t => hr.exists_remove?_iff,
    fun p => ⟨hr.coherent.nodup_trianglesAt p, hat p, ?_⟩, fun k => ?_,
    vertexCount_eq_length_vertices hr.coherent hr.filled, fun a b => ⟨hnodup a b, ?_, halong a b⟩⟩
  · intro id hid hmem
    obtain ⟨t, ⟨-, hlive⟩, -⟩ := (hat p id).1 hmem
    exact hlive hid
  · rw [hr.coherent.lookup.mem_iff_exists hr.filled.lookup]
    exact exists₂_congr fun id t => and_congr_left fun _ => hr.get?_iff id t
  · rw [List.perm_ext_iff_of_nodup (hnodup a b) (hnodup b a)]
    intro id
    rw [halong, halong]
    exact exists_congr fun t => and_congr_right fun _ => and_comm

end Mesh

end Isomesh
