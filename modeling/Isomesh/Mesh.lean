import Isomesh.Arena
import Isomesh.Error
import Isomesh.Triangle

/-!
# Triangle meshes

A mesh is a set of oriented triangles under identifiers. The same triangle may be in it several
times. Vertices and edges are not stored: they are the corners and sides of the triangles, told apart
by their keys.

The triangles at a vertex are found through an index. It is built when it is first needed
(`Mesh.indexed`) and from then on kept up to date by `Mesh.add` and `Mesh.remove?`. The triangles at
a vertex are listed in the order in which they were indexed, so a mesh whose index was built
before a change may list them otherwise than one whose index was built after it.

Models `Mesh`: `new`, `add`, `remove`, `get`, `triangle_count`, `is_empty`, `iter`, `triangles`, `vertices`,
`segments` (`edges`), `bounds`, the construction from triangles, and of its index `distinct_keys` and
`index_triangle` (`enlist`).
-/

set_option autoImplicit false

namespace Isomesh

/-- The name of a triangle in a mesh. -/
abbrev TriangleId := Arena.Id

/-- The triangles at each vertex, in the order in which they were indexed. -/
abbrev VertexIndex (K : Type) [Scalar K] := Std.TreeMap (VertexKey K) (List TriangleId)

variable {K : Type} [Scalar K]

/-- The keys of a triangle's corners, each once. -/
def Triangle.distinctKeys (t : Triangle K) : List (VertexKey K) := distinctOn id t.keys

theorem Triangle.nodup_distinctKeys (t : Triangle K) : t.distinctKeys.Nodup := nodup_distinctOn_id _

theorem Triangle.mem_distinctKeys {t : Triangle K} {k : VertexKey K} :
    k ∈ t.distinctKeys ↔ k ∈ t.keys := mem_distinctOn_id

namespace VertexIndex

/-- Changes the entries of some keys. -/
def alterAll (change : Option (List TriangleId) → Option (List TriangleId)) (ks : List (VertexKey K))
    (index : VertexIndex K) : VertexIndex K :=
  ks.foldl (fun ix k => ix.alter k change) index

/-- The list with an identifier at its end. -/
def withId (id : TriangleId) (ids : Option (List TriangleId)) : Option (List TriangleId) :=
  some (ids.getD [] ++ [id])

/-- The list without an identifier; none if that leaves it empty. -/
def withoutId (id : TriangleId) (ids : Option (List TriangleId)) : Option (List TriangleId) :=
  match (ids.getD []).filter (· ≠ id) with
  | [] => none
  | rest => some rest

/-- Enters a triangle at each of its corners. -/
def enlist (index : VertexIndex K) (id : TriangleId) (t : Triangle K) : VertexIndex K :=
  alterAll (withId id) t.distinctKeys index

/-- Strikes a triangle from each of its corners; a corner without triangles leaves the index. -/
def strike (index : VertexIndex K) (id : TriangleId) (t : Triangle K) : VertexIndex K :=
  alterAll (withoutId id) t.distinctKeys index

theorem getElem?_alterAll (change : Option (List TriangleId) → Option (List TriangleId))
    {ks : List (VertexKey K)} (hks : ks.Nodup) (index : VertexIndex K) (k : VertexKey K) :
    (alterAll change ks index)[k]? = if k ∈ ks then change index[k]? else index[k]? := by
  induction ks generalizing index with
  | nil => simp [alterAll]
  | cons l ks ih =>
    obtain ⟨hl, hks⟩ := List.nodup_cons.1 hks
    have step := ih hks (index.alter l change)
    rw [Std.TreeMap.getElem?_alter] at step
    simp only [Std.LawfulEqCmp.compare_eq_iff_eq] at step
    refine step.trans ?_
    by_cases hlk : l = k
    · subst hlk
      simp [hl]
    · have hkl : k ≠ l := fun h => hlk h.symm
      simp [hlk, hkl]

/-- What is listed at a key after a triangle has been entered. -/
theorem getElem?_enlist (index : VertexIndex K) (id : TriangleId) (t : Triangle K) (k : VertexKey K) :
    (index.enlist id t)[k]? = if k ∈ t.keys then withId id index[k]? else index[k]? := by
  rw [enlist, getElem?_alterAll _ t.nodup_distinctKeys]
  simp only [Triangle.mem_distinctKeys]

/-- What is listed at a key after a triangle has been struck. -/
theorem getElem?_strike (index : VertexIndex K) (id : TriangleId) (t : Triangle K) (k : VertexKey K) :
    (index.strike id t)[k]? = if k ∈ t.keys then withoutId id index[k]? else index[k]? := by
  rw [strike, getElem?_alterAll _ t.nodup_distinctKeys]
  simp only [Triangle.mem_distinctKeys]

/-- The index of an arena, by the order of its slots. -/
def ofArena (arena : Arena (Triangle K)) : VertexIndex K :=
  arena.toList.foldl (fun ix (id, t) => enlist ix id t) ∅

end VertexIndex

/-- A set of oriented triangles. -/
structure Mesh (K : Type) [Scalar K] where
  arena : Arena (Triangle K)
  /-- The index, once it has been needed. -/
  index : Option (VertexIndex K)

namespace Mesh

/-- The mesh without triangles. -/
def empty : Mesh K := ⟨.empty, none⟩

/-- Adds a triangle under a new identifier. -/
def add (m : Mesh K) (t : Triangle K) : TriangleId × Mesh K :=
  let (id, arena) := m.arena.insert t
  (id, ⟨arena, m.index.map fun ix => ix.enlist id t⟩)

/-- Adds the triangles of a list, in order. -/
def extend (m : Mesh K) (ts : List (Triangle K)) : Mesh K := ts.foldl (fun m t => (m.add t).2) m

/-- The mesh of a list of triangles. -/
def ofTriangles (ts : List (Triangle K)) : Mesh K := empty.extend ts

/-- Triangles added to a mesh from which none has been taken come last. -/
theorem extend_of_free_eq_nil {m : Mesh K} (h : m.arena.free = []) (ts : List (Triangle K)) :
    (m.extend ts).arena.free = [] ∧ (m.extend ts).arena.values = m.arena.values ++ ts := by
  induction ts generalizing m with
  | nil => exact ⟨h, by simp [extend]⟩
  | cons t ts ih =>
    obtain ⟨hf, hv⟩ := Arena.insert_of_free_eq_nil h t
    obtain ⟨hf', hv'⟩ := ih (m := (m.add t).2) hf
    refine ⟨hf', hv'.trans ?_⟩
    have : (m.add t).2.arena.values = m.arena.values ++ [t] := hv
    rw [this]
    simp

/-- Takes a triangle out, if it is still there. -/
def remove? (m : Mesh K) (id : TriangleId) : Option (Triangle K × Mesh K) :=
  (m.arena.remove? id).map fun (t, arena) => (t, ⟨arena, m.index.map fun ix => ix.strike id t⟩)

/-- The triangle with an identifier, if it is still there. -/
def get? (m : Mesh K) (id : TriangleId) : Option (Triangle K) := m.arena.get? id

/-- The triangles with their identifiers. -/
def toList (m : Mesh K) : List (TriangleId × Triangle K) := m.arena.toList

/-- The triangles. -/
def triangles (m : Mesh K) : List (Triangle K) := m.arena.values

@[simp] theorem triangles_ofTriangles (ts : List (Triangle K)) : (ofTriangles ts).triangles = ts := by
  have h := (extend_of_free_eq_nil (m := (empty : Mesh K)) rfl ts).2
  rw [show (empty : Mesh K).arena.values = [] from Arena.values_empty, List.nil_append] at h
  exact h

/-- The number of triangles. -/
def triangleCount (m : Mesh K) : Nat := m.arena.size

theorem triangleCount_eq_length (m : Mesh K) : m.triangleCount = m.triangles.length :=
  m.arena.size_eq_length_values

/-- Whether the mesh has no triangles. -/
def isEmpty (m : Mesh K) : Bool := m.triangleCount = 0

/-- The distinct vertices, in the order of their first appearance. -/
def vertices (m : Mesh K) : List (Vec3 K) := distinctOn Vec3.key (m.triangles.flatMap (·.corners))

/-- The distinct edges, in the order of their first appearance. -/
def edges (m : Mesh K) : List (Segment K) := distinctOn Segment.key (m.triangles.flatMap (·.segments))

/-- The box around all triangles, if there are any. -/
def bounds? (m : Mesh K) : Option (Bounds K) :=
  match m.triangles.map Triangle.bounds with
  | [] => none
  | b :: rest => some (rest.foldl Bounds.join b)

end Mesh

end Isomesh
