import Mathlib
import Isomesh.Proofs.VertexMaps

/-!
# Passes of smoothing, one run after another

Smoothing numbers the vertices and lists their neighbours once, then moves the numbered places. A second
run reads both off the moved mesh. While no two vertices have met, the moved mesh has its vertices in the
old order and so the old numbers and the old neighbours in their order, and the second run goes on where
the first one has ended. This needs no arithmetic: it holds for rounded scalars to the last bit.

* `Mesh.KeepsApart`: no two vertices have met.
* `Mesh.placeIn`, `Mesh.triangles_movedTo`: the place that is listed for a key.
* `Mesh.KeepsApart.vertices_movedTo`, `Mesh.KeepsApart.rings_movedTo`: what a second run reads off.
* `Mesh.smoothing_passes_compose`: the main result.
-/

set_option autoImplicit false

namespace Isomesh

variable {K : Type} [Scalar K]

namespace Mesh

variable {m moved : Mesh K} {coords : Array (Vec3 K)}

/-! ## Corners that stay apart -/

/-- The keys of all corners, triangle by triangle. -/
def cornerKeyList (m : Mesh K) : List (VertexKey K) := m.triangles.flatMap Triangle.keys

/-- Whether corners with different keys still have different keys after a mesh has been moved. -/
def KeepsApart (m moved : Mesh K) : Prop :=
  ∀ i j : Nat, moved.cornerKeyList[i]? = moved.cornerKeyList[j]? →
    m.cornerKeyList[i]? = m.cornerKeyList[j]?

theorem mem_cornerKeyList {k : VertexKey K} : k ∈ m.cornerKeyList ↔ k ∈ cornerKeys m.triangles :=
  List.mem_flatMap

/-- Each corner of a moved mesh has the key of the place for its key. -/
theorem cornerKeyList_of_moved {place : VertexKey K → Vec3 K}
    (h : moved.triangles = m.triangles.map (·.map fun p => place p.key)) :
    moved.cornerKeyList = m.cornerKeyList.map fun k => (place k).key := by
  rw [cornerKeyList, cornerKeyList, h, List.flatMap_map, List.map_flatMap]
  exact List.flatMap_congr fun t _ => t.keys_map fun _ => rfl

/-- A moved mesh keeps its corners apart just where no two keys have met. -/
theorem keepsApart_iff_injOn {place : VertexKey K → Vec3 K}
    (h : moved.triangles = m.triangles.map (·.map fun p => place p.key)) :
    m.KeepsApart moved ↔ Set.InjOn (fun k => (place k).key) (cornerKeys m.triangles) := by
  rw [KeepsApart, cornerKeyList_of_moved h]
  simp only [List.getElem?_map]
  constructor
  · intro hapart k hk l hl heq
    obtain ⟨i, hi⟩ := List.mem_iff_getElem?.1 (mem_cornerKeyList.2 hk)
    obtain ⟨j, hj⟩ := List.mem_iff_getElem?.1 (mem_cornerKeyList.2 hl)
    have hij := hapart i j (by rw [hi, hj]; exact congrArg some heq)
    rw [hi, hj] at hij
    exact Option.some.inj hij
  · intro hinj i j heq
    cases hi : m.cornerKeyList[i]? with
    | none =>
      rw [hi] at heq
      exact (Option.map_eq_none_iff.1 heq.symm).symm
    | some k =>
      cases hj : m.cornerKeyList[j]? with
      | none => simp [hi, hj] at heq
      | some l =>
        rw [hi, hj] at heq
        have hk := mem_cornerKeyList.1 (List.mem_of_getElem? hi)
        have hl := mem_cornerKeyList.1 (List.mem_of_getElem? hj)
        exact congrArg some (hinj hk hl (Option.some.inj heq))

/-! ## Numbered places -/

/-- The place that is listed for a key. -/
def placeIn (m : Mesh K) (coords : Array (Vec3 K)) (k : VertexKey K) : Vec3 K :=
  (m.vertexNumbers[k]?.bind (coords[·]?)).getD .zero

theorem movedTo_eq_ofTriangles (m : Mesh K) (coords : Array (Vec3 K)) :
    m.movedTo coords = .ofTriangles (m.movedTo coords).triangles :=
  (congrArg ofTriangles (triangles_ofTriangles _)).symm

/-- A key of a corner is the key of a numbered vertex. -/
theorem exists_number {k : VertexKey K} (hk : k ∈ cornerKeys m.triangles) :
    ∃ (n : Nat) (v : Vec3 K), m.vertices[n]? = some v ∧ v.key = k := by
  obtain ⟨v, hv, rfl⟩ := List.mem_map.1 (mem_cornerKeys_triangles.1 hk)
  obtain ⟨n, hn⟩ := List.mem_iff_getElem?.1 hv
  exact ⟨n, v, hn, rfl⟩

theorem placeIn_key {n : Nat} {v : Vec3 K} (h : m.vertices[n]? = some v) (coords : Array (Vec3 K)) :
    m.placeIn coords v.key = (coords[n]?).getD .zero := by
  rw [placeIn, getElem?_vertexNumbers h, Option.bind_some]

/-- The vertices go to the listed places, in their order. -/
theorem map_placeIn_vertices (h : coords.size = m.vertices.length) :
    (m.vertices.map fun v => m.placeIn coords v.key) = coords.toList := by
  refine List.ext_getElem (by simp [h]) fun n hn _ => ?_
  rw [List.length_map] at hn
  have hsize : n < coords.size := h ▸ hn
  rw [List.getElem_map, placeIn_key (List.getElem?_eq_getElem hn), Array.getElem?_eq_getElem hsize,
    Option.getD_some, Array.getElem_toList]

theorem placeIn_mem (h : coords.size = m.vertices.length) {k : VertexKey K}
    (hk : k ∈ cornerKeys m.triangles) : m.placeIn coords k ∈ coords := by
  obtain ⟨v, hv, rfl⟩ := List.mem_map.1 (mem_cornerKeys_triangles.1 hk)
  rw [← Array.mem_toList_iff, ← map_placeIn_vertices h]
  exact List.mem_map_of_mem hv

theorem triangles_movedTo (h : coords.size = m.vertices.length) :
    (m.movedTo coords).triangles = m.triangles.map (·.map fun p => m.placeIn coords p.key) :=
  triangles_relocate_of_forall fun _ hv => exists_listed_place h hv

/-- A moved mesh has its corners at the listed places. -/
theorem mem_of_corner_movedTo (h : coords.size = m.vertices.length) {t : Triangle K}
    (ht : t ∈ (m.movedTo coords).triangles) {p : Vec3 K} (hp : p ∈ t.corners) : p ∈ coords := by
  rw [triangles_movedTo h] at ht
  obtain ⟨old, hold, rfl⟩ := List.mem_map.1 ht
  obtain ⟨q, hq, rfl⟩ := List.mem_map.1 (show p ∈ old.corners.map fun q => m.placeIn coords q.key from hp)
  exact placeIn_mem h ⟨old, hold, List.mem_map_of_mem hq⟩

/-- Corners are kept apart just where the places have different keys. -/
theorem keepsApart_movedTo_iff (h : coords.size = m.vertices.length) :
    m.KeepsApart (m.movedTo coords) ↔ (coords.toList.map Vec3.key).Nodup := by
  rw [keepsApart_iff_injOn (triangles_movedTo h), ← map_placeIn_vertices h, List.map_map]
  have hset : cornerKeys m.triangles = {k | k ∈ m.vertices.map Vec3.key} :=
    Set.ext fun _ => mem_cornerKeys_triangles
  change _ ↔ (m.vertices.map ((fun k => (m.placeIn coords k).key) ∘ Vec3.key)).Nodup
  rw [hset, ← List.map_map, List.nodup_map_iff_inj_on m.nodup_key_vertices]
  rfl

/-! ## What a second run reads off -/

namespace KeepsApart

/-- **The moved mesh has its vertices in the old order.** -/
theorem vertices_movedTo (h : m.KeepsApart (m.movedTo coords))
    (hsize : coords.size = m.vertices.length) : (m.movedTo coords).vertices = coords.toList := by
  have hinj := (keepsApart_iff_injOn (triangles_movedTo hsize)).1 h
  have hcorners : (m.movedTo coords).triangles.flatMap Triangle.corners =
      (m.triangles.flatMap Triangle.corners).map fun p => m.placeIn coords p.key := by
    rw [triangles_movedTo hsize, List.flatMap_map, List.map_flatMap]
    rfl
  have hmem {p : Vec3 K} (hp : p ∈ m.triangles.flatMap Triangle.corners) :
      p.key ∈ cornerKeys m.triangles := by
    obtain ⟨t, ht, hp⟩ := List.mem_flatMap.1 hp
    exact ⟨t, ht, List.mem_map_of_mem hp⟩
  -- the new keys agree just where the old ones do, so the first corner of a key is still the first
  rw [vertices, hcorners, distinctOn_map fun p hp q hq =>
    ⟨fun heq => hinj (hmem hp) (hmem hq) heq, fun heq => by rw [heq]⟩]
  exact map_placeIn_vertices hsize

/-- The moved vertices have the old numbers. -/
theorem vertexNumbers_movedTo (h : m.KeepsApart (m.movedTo coords))
    (hsize : coords.size = m.vertices.length) {k : VertexKey K} (hk : k ∈ cornerKeys m.triangles) :
    (m.movedTo coords).vertexNumbers[(m.placeIn coords k).key]? = m.vertexNumbers[k]? := by
  obtain ⟨n, v, hn, rfl⟩ := exists_number hk
  have hlisted : (m.movedTo coords).vertices[n]? = some (m.placeIn coords v.key) := by
    rw [h.vertices_movedTo hsize, ← map_placeIn_vertices hsize, List.getElem?_map, hn, Option.map_some]
  rw [getElem?_vertexNumbers hlisted, getElem?_vertexNumbers hn]

/-- **The moved mesh has the old neighbours in the old order.** -/
theorem rings_movedTo (h : m.KeepsApart (m.movedTo coords))
    (hsize : coords.size = m.vertices.length) : (m.movedTo coords).rings = m.rings := by
  have hfaces : (m.movedTo coords).faces = m.faces := by
    rw [faces, faces, triangles_movedTo hsize, List.map_map]
    refine List.map_congr_left fun t ht => ?_
    rw [Function.comp_apply, Triangle.keys_map (g := fun k => (m.placeIn coords k).key) (fun _ => rfl),
      List.map_map]
    refine List.map_congr_left fun k hk => ?_
    rw [Function.comp_apply, Std.TreeMap.getD_eq_getD_getElem?, Std.TreeMap.getD_eq_getD_getElem?,
      h.vertexNumbers_movedTo hsize ⟨t, ht, hk⟩]
  rw [rings, rings, hfaces, h.vertices_movedTo hsize, Array.length_toList, hsize]

/-- A second run goes on from the places where the first one has ended. -/
theorem smoothedCoords_movedTo (h : m.KeepsApart (m.movedTo coords))
    (hsize : coords.size = m.vertices.length) (rates : List K) :
    (m.movedTo coords).smoothedCoords rates = rates.foldl (relax m.rings) coords := by
  rw [smoothedCoords, h.rings_movedTo hsize, h.vertices_movedTo hsize]

/-- Vertices that are moved twice are where the second list has them. -/
theorem movedTo_movedTo (h : m.KeepsApart (m.movedTo coords))
    (hsize : coords.size = m.vertices.length) {last : Array (Vec3 K)}
    (hlast : last.size = m.vertices.length) : (m.movedTo coords).movedTo last = m.movedTo last := by
  have hvertices : last.size = (m.movedTo coords).vertices.length := by
    rw [h.vertices_movedTo hsize, Array.length_toList, hsize, hlast]
  have hplace {k : VertexKey K} (hk : k ∈ cornerKeys m.triangles) :
      (m.movedTo coords).placeIn last (m.placeIn coords k).key = m.placeIn last k :=
    congrArg (fun n => (n.bind (last[·]?)).getD .zero) (h.vertexNumbers_movedTo hsize hk)
  have htriangles : ((m.movedTo coords).movedTo last).triangles = (m.movedTo last).triangles := by
    rw [triangles_movedTo hvertices, triangles_movedTo hsize, triangles_movedTo hlast, List.map_map]
    exact List.map_congr_left fun t ht => Triangle.map_congr fun p hp =>
      hplace ⟨t, ht, List.mem_map_of_mem hp⟩
  rw [movedTo_eq_ofTriangles, htriangles, ← movedTo_eq_ofTriangles]

end KeepsApart

/-! ## Main result -/

/-- **Passes of smoothing can be split between two runs.** If no two vertices have met in the first run, a
second one on its mesh returns the very mesh that one run with all rates returns. -/
theorem smoothing_passes_compose {m : Mesh K} {first rest : List K}
    (hfirst : ∀ rate ∈ first, Scalar.isFinite rate = true)
    (hrest : ∀ rate ∈ rest, Scalar.isFinite rate = true) :
    ∃ once twice whole, m.smooth first = .ok once ∧ once.smooth rest = .ok twice ∧
      m.smooth (first ++ rest) = .ok whole ∧ (m.KeepsApart once → twice = whole) := by
  have hall : ∀ rate ∈ first ++ rest, Scalar.isFinite rate = true :=
    List.forall_mem_append.2 ⟨hfirst, hrest⟩
  refine ⟨_, _, _, smooth_eq_ok hfirst m, smooth_eq_ok hrest _, smooth_eq_ok hall m, fun h => ?_⟩
  have hsize := size_smoothedCoords first m
  have hcoords : (m.movedTo (m.smoothedCoords first)).smoothedCoords rest =
      m.smoothedCoords (first ++ rest) := by
    rw [h.smoothedCoords_movedTo hsize, smoothedCoords, smoothedCoords, List.foldl_append]
  have hmesh := h.movedTo_movedTo hsize (size_smoothedCoords (first ++ rest) m)
  rw [hcoords, hmesh]

/-- A tetrahedron of doubles with both zeros at the origin, smoothed at three rates. -/
theorem signedZeros_passes_compose : ∃ once twice, signedZeros.smooth [0.5] = .ok once ∧
    once.smooth [-0.25, 1.5] = .ok twice ∧ signedZeros.smooth [0.5, -0.25, 1.5] = .ok twice := by
  have hfirst : ∀ rate ∈ [(0.5 : Float)], Scalar.isFinite rate = true := by decide +kernel
  have hrest : ∀ rate ∈ [(-0.25 : Float), 1.5], Scalar.isFinite rate = true := by decide +kernel
  obtain ⟨once, twice, whole, honce, htwice, hwhole, hsame⟩ :=
    smoothing_passes_compose (m := signedZeros) hfirst hrest
  have hapart : signedZeros.KeepsApart once := by
    rw [smooth_eq_ok hfirst] at honce
    cases honce
    exact (keepsApart_movedTo_iff (size_smoothedCoords _ _)).2 (by decide +kernel)
  obtain rfl := hsame hapart
  exact ⟨once, twice, honce, htwice, hwhole⟩

end Mesh

end Isomesh
