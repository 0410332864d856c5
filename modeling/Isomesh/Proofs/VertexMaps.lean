import Mathlib
import Isomesh.Proofs.EdgeCounts
import Isomesh.Proofs.MeshHistory
import Isomesh.Proofs.MovedVertices

/-!
# Vertex maps keep connectivity

A mesh that is passed through a function asks it once for each distinct vertex. The function may have a
state, so it matters which questions come in which order. To see them, the function gets a log beside its
state: it answers as before, and notes every question with its answer.

The new mesh is read off the log, corner by corner. If no two answers have the same key, then the keys of
the one mesh correspond to the keys of the other, and whatever is counted by keys stays.

* `run_mapM_logged`: a walk over some points, with the log.
* `Mesh.calls_eq`, `Mesh.exists_place`: the log of a mesh, and the new mesh.
* `Mesh.Relabeled`: one place for each key, with the keys of the places apart.
* `Mesh.mapM_keeps_connectivity`: the main result.
-/

set_option autoImplicit false

namespace Isomesh

/-! ## The log -/

/-- The questions that a function was asked, with its answers. -/
abbrev CallLog (K : Type) := List (Vec3 K × Vec3 K)

section Log

variable {K σ : Type}

/-- Answers as a function does and notes the question with the answer. -/
def logged (f : Vec3 K → StateM σ (Vec3 K)) (p : Vec3 K) : StateM (σ × CallLog K) (Vec3 K) := do
  let (s, calls) ← get
  let (q, s') := (f p).run s
  set (s', calls ++ [(p, q)])
  return q

theorem run_logged (f : Vec3 K → StateM σ (Vec3 K)) (p : Vec3 K) (s : σ) (calls : CallLog K) :
    (logged f p).run (s, calls) =
      (((f p).run s).1, ((f p).run s).2, calls ++ [(p, ((f p).run s).1)]) := rfl

/-- **A log** has the questions in their order, each with its answer, and changes neither the answers nor
the state. -/
theorem run_mapM_logged (f : Vec3 K → StateM σ (Vec3 K)) (ps : List (Vec3 K)) (s : σ)
    (calls : CallLog K) :
    (ps.mapM (logged f)).run (s, calls) =
      (((ps.mapM f).run s).1, ((ps.mapM f).run s).2, calls ++ ps.zip ((ps.mapM f).run s).1) := by
  -- for any log, since the rest of the walk begins with the first call in it
  induction ps generalizing s calls with
  | nil =>
    rw [List.zip_nil_left, List.append_nil]
    rfl
  | cons p ps ih =>
    rw [Mesh.run_mapM_cons, Mesh.run_mapM_cons, run_logged]
    simp only [ih, List.zip_cons_cons, List.append_assoc, List.singleton_append]

end Log

variable {K : Type} [Scalar K]

namespace Mesh

variable {m moved : Mesh K}

section Calls

variable {σ : Type} (m : Mesh K) (f : Vec3 K → StateM σ (Vec3 K)) (s : σ)

/-- What a function is asked when a mesh is passed through it from a state, with its answers. -/
def calls : CallLog K := ((m.mapM (logged f)).run (s, [])).2.2

theorem run_mapM_eq : (m.mapM f).run s =
    (m.relocate fun k => (answered ∅ m.vertices ((m.vertices.mapM f).run s).1)[k]?,
      ((m.vertices.mapM f).run s).2) := by
  rw [mapM_eq]
  rfl

/-- A log changes neither the new mesh nor the state of the function. -/
theorem run_mapM_logged_eq : (m.mapM (logged f)).run (s, []) =
    (((m.mapM f).run s).1, ((m.mapM f).run s).2, m.calls f s) := by
  rw [calls, run_mapM_eq, run_mapM_eq, run_mapM_logged]

/-- **The log of a mesh** has its vertices, each with its answer. -/
theorem calls_eq : m.calls f s = m.vertices.zip ((m.vertices.mapM f).run s).1 := by
  rw [calls, run_mapM_eq, run_mapM_logged]
  rfl

theorem map_fst_calls : (m.calls f s).map Prod.fst = m.vertices := by
  rw [calls_eq, List.map_fst_zip (length_run_mapM f m.vertices s).ge]

theorem map_snd_calls : (m.calls f s).map Prod.snd = ((m.vertices.mapM f).run s).1 := by
  rw [calls_eq, List.map_snd_zip (length_run_mapM f m.vertices s).le]

/-- **The new mesh is read off the log.** -/
theorem exists_place : ∃ place : VertexKey K → Vec3 K,
    (∀ call ∈ m.calls f s, place call.1.key = call.2) ∧
      ((m.mapM f).run s).1.triangles = m.triangles.map (·.map fun p => place p.key) := by
  have hlength := length_run_mapM f m.vertices s
  rw [run_mapM_eq, calls_eq]
  refine ⟨fun k => ((answered ∅ m.vertices ((m.vertices.mapM f).run s).1)[k]?).getD .zero,
    fun call hcall => ?_, triangles_relocate_of_forall fun v hv => exists_getElem?_answered hlength hv⟩
  simp only [getElem?_answered_of_mem hlength hcall, Option.getD_some]

end Calls

/-! ## One place for each key -/

/-- Whether a mesh has the triangles of another one with its keys at new places, of which no two have the
same key. -/
structure Relabeled (m moved : Mesh K) (place : VertexKey K → Vec3 K) : Prop where
  triangles_eq : moved.triangles = m.triangles.map (·.map fun p => place p.key)
  injOn : Set.InjOn (fun k => (place k).key) (cornerKeys m.triangles)

theorem mem_cornerKeys_triangles {k : VertexKey K} :
    k ∈ cornerKeys m.triangles ↔ k ∈ m.vertices.map Vec3.key := by
  rw [mem_keys_vertices_iff]
  simp only [← Triangle.mem_keys_iff_hasCorner]
  rfl

/-- The vertices of a mesh are the keys of its corners. -/
theorem length_vertices_eq_ncard (m : Mesh K) : m.vertices.length = (cornerKeys m.triangles).ncard := by
  have hset : cornerKeys m.triangles = ((m.vertices.map Vec3.key).toFinset : Set (VertexKey K)) := by
    ext k
    rw [Finset.mem_coe, List.mem_toFinset, mem_cornerKeys_triangles]
  rw [hset, Set.ncard_coe_finset, List.toFinset_card_of_nodup m.nodup_key_vertices, List.length_map]

namespace Relabeled

variable {place : VertexKey K → Vec3 K}

theorem length_vertices (h : m.Relabeled moved place) : moved.vertices.length = m.vertices.length := by
  rw [length_vertices_eq_ncard, length_vertices_eq_ncard, h.triangles_eq,
    cornerKeys_map (g := fun k => (place k).key) fun _ => rfl, h.injOn.ncard_image]

theorem length_edges (h : m.Relabeled moved place) : moved.edges.length = m.edges.length := by
  rw [length_edges_eq_card, length_edges_eq_card, h.triangles_eq,
    card_edgePairs_map (fun _ => rfl) h.injOn]

theorem irregularEdges_eq (h : m.Relabeled moved place) (hm : m.Coherent) (hmoved : moved.Coherent) :
    moved.irregularEdges = m.irregularEdges := by
  rw [hmoved.irregularEdges_eq_card, hm.irregularEdges_eq_card, h.triangles_eq,
    card_irregularPairs_map (fun _ => rfl) h.injOn]

theorem length_trianglesAlong (h : m.Relabeled moved place) (hm : m.Coherent) (hmoved : moved.Coherent)
    {u v : Vec3 K} (hu : u ∈ m.vertices) (hv : v ∈ m.vertices) :
    (moved.trianglesAlong (place u.key) (place v.key)).length = (m.trianglesAlong u v).length := by
  have hkeys : ∀ k ∈ s(u.key, v.key), k ∈ cornerKeys m.triangles :=
    Sym2.ball.2 ⟨mem_cornerKeys_triangles.2 (List.mem_map_of_mem hu),
      mem_cornerKeys_triangles.2 (List.mem_map_of_mem hv)⟩
  have hcount := pairCount_map (f := fun p => place p.key) (fun _ => rfl) h.injOn hkeys
  rw [hmoved.length_trianglesAlong, hm.length_trianglesAlong, h.triangles_eq]
  exact hcount

/-- Answers with different keys keep the keys apart. -/
theorem of_nodup {calls : CallLog K} (hasked : calls.map Prod.fst = m.vertices)
    (hplace : ∀ call ∈ calls, place call.1.key = call.2)
    (htriangles : moved.triangles = m.triangles.map (·.map fun p => place p.key))
    (hnodup : (calls.map fun call => call.2.key).Nodup) : m.Relabeled moved place := by
  have hcall {k : VertexKey K} (hk : k ∈ cornerKeys m.triangles) : ∃ call ∈ calls, call.1.key = k := by
    rw [mem_cornerKeys_triangles, ← hasked, List.map_map] at hk
    exact List.mem_map.1 hk
  refine ⟨htriangles, fun k hk l hl heq => ?_⟩
  obtain ⟨u, hu, rfl⟩ := hcall hk
  obtain ⟨v, hv, rfl⟩ := hcall hl
  dsimp only at heq
  rw [hplace u hu, hplace v hv] at heq
  -- answers with one key belong to one call
  rw [List.inj_on_of_nodup_map hnodup hu hv heq]

end Relabeled

/-! ## Main result -/

/-- **Passing a mesh through a function keeps its connectivity.** Whatever state the function has, it is
asked for each key of a corner once, at the vertices of the mesh in their order. The new mesh has the
triangles of the old one in their order, with every corner at the answer for its key. If no two answers
have the same key, then there are as many triangles along two answers as along the vertices that they
belong to, and the numbers of vertices, of edges and of irregular edges stay. -/
theorem mapM_keeps_connectivity (hm : m.Built) {σ : Type} (f : Vec3 K → StateM σ (Vec3 K)) (s : σ) :
    let mapped := ((m.mapM f).run s).1
    let calls := m.calls f s
    (m.mapM (logged f)).run (s, []) = (mapped, ((m.mapM f).run s).2, calls) ∧
      calls.map Prod.fst = m.vertices ∧
      (m.vertices.mapM f).run s = (calls.map Prod.snd, ((m.mapM f).run s).2) ∧
      (calls.map fun call => call.1.key).Nodup ∧
      (∀ k, k ∈ calls.map (fun call => call.1.key) ↔ ∃ t ∈ m.triangles, k ∈ t.keys) ∧
      (∃ place : VertexKey K → Vec3 K, (∀ call ∈ calls, place call.1.key = call.2) ∧
        mapped.triangles = m.triangles.map (·.map fun p => place p.key)) ∧
      ((calls.map fun call => call.2.key).Nodup →
        (∀ u ∈ calls, ∀ v ∈ calls,
          (mapped.trianglesAlong u.2 v.2).length = (m.trianglesAlong u.1 v.1).length) ∧
        mapped.vertexCount = m.vertexCount ∧ mapped.edges.length = m.edges.length ∧
        mapped.irregularEdges = m.irregularEdges) := by
  intro mapped calls
  have hasked : calls.map Prod.fst = m.vertices := m.map_fst_calls f s
  have hkeys : (calls.map fun call => call.1.key) = m.vertices.map Vec3.key := by
    rw [← hasked, List.map_map]
    rfl
  -- so the index of the new mesh can be relied on, too
  have hmapped : mapped.Built := by
    rw [show mapped = _ from congrArg Prod.fst (m.run_mapM_eq f s)]
    exact built_ofTriangles _
  obtain ⟨place, hplace, htriangles⟩ := m.exists_place f s
  refine ⟨m.run_mapM_logged_eq f s, hasked, ?_, hkeys ▸ m.nodup_key_vertices, fun k => ?_,
    ⟨place, hplace, htriangles⟩, fun hnodup => ?_⟩
  · rw [m.map_snd_calls f s, m.run_mapM_eq f s]
    rfl
  · rw [hkeys, ← mem_cornerKeys_triangles]
    rfl
  · have h : m.Relabeled mapped place := .of_nodup hasked hplace htriangles hnodup
    refine ⟨fun u hu v hv => ?_, ?_, h.length_edges, h.irregularEdges_eq hm.coherent hmapped.coherent⟩
    · have hvertex {call : Vec3 K × Vec3 K} (hcall : call ∈ calls) : call.1 ∈ m.vertices :=
        hasked ▸ List.mem_map_of_mem hcall
      rw [← hplace u hu, ← hplace v hv]
      exact h.length_trianglesAlong hm.coherent hmapped.coherent (hvertex hu) (hvertex hv)
    · rw [vertexCount_eq_length_vertices hmapped.coherent hmapped.filled,
        vertexCount_eq_length_vertices hm.coherent hm.filled, h.length_vertices]

/-- The vertices of a tetrahedron are scaled by `0`, `1`, `2` and `3`. -/
theorem signedZeros_keeps_connectivity :
    let mapped := ((signedZeros.mapM release).run 0).1
    let calls := signedZeros.calls release 0
    calls.length = 4 ∧
      (∀ u ∈ calls, ∀ v ∈ calls, u.1.key ≠ v.1.key → (mapped.trianglesAlong u.2 v.2).length = 2) ∧
      mapped.vertexCount = 4 ∧ mapped.edges.length = 6 ∧ mapped.irregularEdges = 0 := by
  obtain ⟨-, -, -, -, -, -, hcounts⟩ :=
    mapM_keeps_connectivity (m := signedZeros) (built_ofTriangles _) release 0
  obtain ⟨halong, hvertices, hedges, hirregular⟩ := hcounts (by decide +kernel)
  have htwo : ∀ u ∈ signedZeros.calls release 0, ∀ v ∈ signedZeros.calls release 0,
      u.1.key ≠ v.1.key → (signedZeros.trianglesAlong u.1 v.1).length = 2 := by decide +kernel
  refine ⟨by decide +kernel, fun u hu v hv hne => ?_, ?_, ?_, ?_⟩
  · exact (halong u hu v hv).trans (htwo u hu v hv hne)
  · exact hvertices.trans (by decide +kernel)
  · exact hedges.trans (by decide +kernel)
  · exact hirregular.trans (by decide +kernel)

end Mesh

end Isomesh
