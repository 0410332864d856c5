import Mathlib
import Isomesh.Binary64
import Isomesh.Proofs.BalancedSides
import Isomesh.Proofs.PassedVertices
import Isomesh.Proofs.Welding
import Isomesh.Smooth

/-!
# Moving vertices keeps surfaces closed

Welding, smoothing and passing a mesh through a function each look up a new place for every corner. What
they have in common is that the place depends on the key of the corner alone and that no corner is left
out, so a corner cannot be torn off from another one with its key. Then every directed edge goes where its
reverse goes, and a balanced surface stays balanced, whatever the places are.

* `Mesh.Moved`: one place for each key.
* `Mesh.Moved.balanced`: balanced surfaces stay balanced.
* `Mesh.Moved.relocate`: a table of places that misses no vertex.
* `Mesh.movedTo`: the table that smoothing ends with, one place for each number.
* `Mesh.moved_weldBy`, `Mesh.exists_smooth_eq_ok`, `Mesh.moved_mapM`: the tables miss no vertex.
-/

set_option autoImplicit false

namespace Isomesh

theorem Triangle.map_congr {K : Type} {f g : Vec3 K → Vec3 K} {t : Triangle K}
    (h : ∀ p ∈ t.corners, f p = g p) : t.map f = t.map g := by
  simp only [corners, List.forall_mem_cons] at h
  obtain ⟨ha, hb, hc, -⟩ := h
  rw [map, map, ha, hb, hc]

variable {K : Type} [Scalar K]

namespace Mesh

variable {m moved : Mesh K}

/-! ## One place for each key -/

/-- Whether a mesh has the triangles of another one in their order, with all corners of a key moved to
one place. -/
def Moved (m moved : Mesh K) : Prop :=
  ∃ place : VertexKey K → Vec3 K, moved.triangles = m.triangles.map (·.map fun p => place p.key)

/-- **Balanced surfaces stay balanced** when the vertices are moved. -/
theorem Moved.balanced (h : m.Moved moved) (hm : Balanced m.triangles) : Balanced moved.triangles := by
  obtain ⟨place, heq⟩ := h
  rw [heq]
  exact hm.map (g := fun k => (place k).key) fun _ => rfl

/-- A table of places that misses no vertex says where every corner goes. -/
theorem triangles_relocate_of_forall {place : VertexKey K → Option (Vec3 K)}
    (h : ∀ v ∈ m.vertices, ∃ q, place v.key = some q) :
    (m.relocate place).triangles = m.triangles.map (·.map fun p => (place p.key).getD .zero) := by
  rw [triangles_relocate]
  refine List.map_congr_left fun t ht => Triangle.map_congr fun p hp => ?_
  obtain ⟨v, hv, hkey⟩ := exists_vertex_of_corner ht hp
  obtain ⟨q, hq⟩ := h v hv
  simp only [← hkey, hq, Option.getD_some]

/-- Such a table moves all corners of a key to one place. -/
theorem Moved.relocate {place : VertexKey K → Option (Vec3 K)}
    (h : ∀ v ∈ m.vertices, ∃ q, place v.key = some q) : m.Moved (m.relocate place) :=
  ⟨fun k => (place k).getD .zero, triangles_relocate_of_forall h⟩

/-! ## Welding -/

/-- Every vertex is a member of a cluster. -/
theorem moved_weldBy (m : Mesh K) (cellsOf : Vec3 K → List WeldCell) : m.Moved (m.weldBy cellsOf) := by
  refine Moved.relocate fun v hv => ?_
  have hpart := Cluster.partition_ofVertices cellsOf m.nodup_key_vertices
  obtain ⟨c, hc, hk⟩ := hpart.covers v hv
  exact ⟨c.center, Cluster.getElem?_centers hpart.apart hc hk⟩

/-! ## Smoothing -/

/-- The number of a vertex is its place in the list of vertices. -/
theorem getElem?_vertexNumbers {n : Nat} {v : Vec3 K} (h : m.vertices[n]? = some v) :
    m.vertexNumbers[v.key]? = some n := by
  refine Std.TreeMap.getElem?_ofList_of_mem Std.ReflCmp.compare_self (pairwise_compare_ne_eq ?_)
    (List.mem_map.2 ⟨(v, n), List.mem_zipIdx_iff_getElem?.2 h, rfl⟩)
  rw [List.map_map]
  change (m.vertices.zipIdx.map (Vec3.key ∘ Prod.fst)).Nodup
  rw [← List.map_map, List.zipIdx_map_fst]
  exact m.nodup_key_vertices

theorem size_relax {rings : List (List Nat)} {coords : Array (Vec3 K)}
    (h : rings.length = coords.size) (rate : K) : (relax rings coords rate).size = coords.size := by
  simp [relax, h]

/-- Every pass has a place for every vertex. -/
theorem size_smoothedCoords (rates : List K) (m : Mesh K) :
    (m.smoothedCoords rates).size = m.vertices.length := by
  have hrings : m.rings.length = m.vertices.length := by simp [rings]
  refine List.foldlRecOn (motive := fun coords : Array (Vec3 K) => coords.size = m.vertices.length)
    rates _ List.size_toArray ?_
  intro coords hsize rate _
  rw [size_relax (hrings.trans hsize.symm), hsize]

/-- The mesh with each vertex at the place that is listed under its number. -/
def movedTo (m : Mesh K) (coords : Array (Vec3 K)) : Mesh K :=
  m.relocate fun k => m.vertexNumbers[k]?.bind (coords[·]?)

theorem exists_listed_place {coords : Array (Vec3 K)} (h : coords.size = m.vertices.length) {v : Vec3 K}
    (hv : v ∈ m.vertices) : ∃ q, m.vertexNumbers[v.key]?.bind (coords[·]?) = some q := by
  obtain ⟨n, hn, rfl⟩ := List.mem_iff_getElem.1 hv
  rw [getElem?_vertexNumbers (List.getElem?_eq_getElem hn), Option.bind_some]
  exact ⟨coords[n], Array.getElem?_eq_getElem _⟩

theorem moved_movedTo {coords : Array (Vec3 K)} (h : coords.size = m.vertices.length) :
    m.Moved (m.movedTo coords) :=
  .relocate fun _ hv => exists_listed_place h hv

theorem smooth_eq_ok {rates : List K} (h : ∀ rate ∈ rates, Scalar.isFinite rate = true) (m : Mesh K) :
    m.smooth rates = .ok (m.movedTo (m.smoothedCoords rates)) := by
  have hnone : rates.find? (fun rate => !Scalar.isFinite rate) = none := by
    simpa using h
  rw [smooth, hnone]
  rfl

theorem exists_smooth_eq_ok {rates : List K} (h : ∀ rate ∈ rates, Scalar.isFinite rate = true)
    (m : Mesh K) : ∃ smoothed, m.smooth rates = .ok smoothed ∧ m.Moved smoothed :=
  ⟨_, smooth_eq_ok h m, moved_movedTo (size_smoothedCoords rates m)⟩

/-! ## Passing through a function -/

theorem run_mapM_cons {α β σ : Type} (f : α → StateM σ β) (a : α) (as : List α) (s : σ) :
    ((a :: as).mapM f).run s =
      let first := (f a).run s
      let rest := (as.mapM f).run first.2
      (first.1 :: rest.1, rest.2) := by
  rw [List.mapM_cons]
  rfl

theorem length_run_mapM {α β σ : Type} (f : α → StateM σ β) (as : List α) (s : σ) :
    ((as.mapM f).run s).1.length = as.length := by
  induction as generalizing s with
  | nil => rfl
  | cons a as ih =>
    rw [run_mapM_cons]
    exact congrArg (· + 1) (ih _)

/-- The answer that a vertex has got is found under its key. -/
theorem getElem?_answered_of_mem {qs : List (Vec3 K)} (h : qs.length = m.vertices.length)
    {v q : Vec3 K} (hvq : (v, q) ∈ m.vertices.zip qs) : (answered ∅ m.vertices qs)[v.key]? = some q := by
  have hkeys : (((m.vertices.map Vec3.key).zip qs).map Prod.fst).Nodup := by
    rw [List.map_fst_zip (by simp [h])]
    exact m.nodup_key_vertices
  refine Std.TreeMap.getElem?_insertMany_list_of_mem Std.ReflCmp.compare_self
    (pairwise_compare_ne_eq hkeys) ?_
  rw [List.zip_map_left]
  exact List.mem_map.2 ⟨(v, q), hvq, rfl⟩

/-- Every question has an answer. -/
theorem exists_getElem?_answered {qs : List (Vec3 K)} (h : qs.length = m.vertices.length)
    {v : Vec3 K} (hv : v ∈ m.vertices) : ∃ q, (answered ∅ m.vertices qs)[v.key]? = some q := by
  have hfst : (m.vertices.zip qs).map Prod.fst = m.vertices := List.map_fst_zip h.ge
  rw [← hfst] at hv
  obtain ⟨⟨v, q⟩, hvq, rfl⟩ := List.mem_map.1 hv
  exact ⟨q, getElem?_answered_of_mem h hvq⟩

theorem Moved.relocate_answered {qs : List (Vec3 K)} (h : qs.length = m.vertices.length) :
    m.Moved (m.relocate fun k => (answered ∅ m.vertices qs)[k]?) :=
  .relocate fun _ hv => exists_getElem?_answered h hv

theorem moved_mapM {σ : Type} (m : Mesh K) (f : Vec3 K → StateM σ (Vec3 K)) (s : σ) :
    m.Moved ((m.mapM f).run s).1 := by
  rw [mapM_eq]
  exact Moved.relocate_answered (length_run_mapM f m.vertices s)

theorem moved_map (m : Mesh K) (f : Vec3 K → Vec3 K) : m.Moved (m.map f) := by
  rw [map, mapM_eq, List.mapM_pure]
  exact Moved.relocate_answered (List.length_map f)

/-! ## Main results -/

/-- **Moving vertices keeps a surface closed.** If every directed edge of a mesh is traversed as often as
its reverse, then so is every directed edge of the mesh that is welded with an accepted distance, smoothed
at finite rates, or passed through a function, with or without a state. All three give an answer, with the
triangles of the mesh in their order, whatever the numbers are and whichever vertices become equal. -/
theorem moved_vertices_stay_balanced {m : Mesh K} (hm : Balanced m.triangles) :
    (∀ epsilon, Scalar.isFinite epsilon = true → 0 < epsilon → ∃ welded, m.weld epsilon = .ok welded ∧
      m.Moved welded ∧ Balanced welded.triangles) ∧
    (∀ rates, (∀ rate ∈ rates, Scalar.isFinite rate = true) → ∃ smoothed,
      m.smooth rates = .ok smoothed ∧ m.Moved smoothed ∧ Balanced smoothed.triangles) ∧
    (∀ (σ : Type) (f : Vec3 K → StateM σ (Vec3 K)) (s : σ),
      m.Moved ((m.mapM f).run s).1 ∧ Balanced ((m.mapM f).run s).1.triangles) ∧
    ∀ f, m.Moved (m.map f) ∧ Balanced (m.map f).triangles := by
  refine ⟨fun epsilon hfinite hpos => ?_, fun rates hrates => ?_, fun σ f s => ?_, fun f => ?_⟩
  · have hmoved := m.moved_weldBy (weldCells epsilon)
    exact ⟨_, m.weld_eq_ok hfinite hpos, hmoved, hmoved.balanced hm⟩
  · obtain ⟨smoothed, hsmooth, hmoved⟩ := exists_smooth_eq_ok hrates m
    exact ⟨smoothed, hsmooth, hmoved, hmoved.balanced hm⟩
  · exact ⟨m.moved_mapM f s, (m.moved_mapM f s).balanced hm⟩
  · exact ⟨m.moved_map f, (m.moved_map f).balanced hm⟩

/-- A tetrahedron of doubles. Both zeros occur at the origin, so only the keys of its corners agree. -/
def signedZeros : Mesh Float :=
  .ofTriangles [⟨⟨0.0, 0.0, 0.0⟩, ⟨0.0, 1.0, 0.0⟩, ⟨1.0, -0.0, 0.0⟩⟩,
    ⟨⟨-0.0, 0.0, 0.0⟩, ⟨1.0, 0.0, 0.0⟩, ⟨0.0, 0.0, 1.0⟩⟩,
    ⟨⟨0.0, -0.0, 0.0⟩, ⟨-0.0, 0.0, 1.0⟩, ⟨0.0, 1.0, -0.0⟩⟩,
    ⟨⟨1.0, 0.0, -0.0⟩, ⟨0.0, 1.0, 0.0⟩, ⟨0.0, -0.0, 1.0⟩⟩]

/-- Scales the points that it is asked about by `0`, `1`, `2` and so on. -/
def release (p : Vec3 Float) : StateM Nat (Vec3 Float) := do
  let n ← get
  set (n + 1)
  return p.scale (Float.ofNat n)

theorem signedZeros_stays_balanced :
    (∃ welded, signedZeros.weld 1.5 = .ok welded ∧ Balanced welded.triangles) ∧
    (∃ smoothed, signedZeros.smooth [0.5, -0.25] = .ok smoothed ∧ Balanced smoothed.triangles) ∧
    ((signedZeros.mapM release).run 0).2 = 4 ∧
    Balanced ((signedZeros.mapM release).run 0).1.triangles := by
  obtain ⟨hweld, hsmooth, hmapM, -⟩ :=
    moved_vertices_stay_balanced (m := signedZeros) (isBalanced_iff_perm.2 (by decide +kernel))
  obtain ⟨welded, hwelded, -, hwelded'⟩ := hweld 1.5 (by decide +kernel) (by decide +kernel)
  obtain ⟨smoothed, hsmoothed, -, hsmoothed'⟩ := hsmooth [0.5, -0.25] (by decide +kernel)
  exact ⟨⟨welded, hwelded, hwelded'⟩, ⟨smoothed, hsmoothed, hsmoothed'⟩, by decide +kernel,
    (hmapM Nat release 0).2⟩

end Mesh

end Isomesh
