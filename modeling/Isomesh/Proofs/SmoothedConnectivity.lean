import Mathlib
import Isomesh.Proofs.SmoothingWeights

/-!
# When smoothing keeps connectivity

A mesh knows its vertices by their coordinates alone. Smoothing moves every vertex where the neighbours
pull it, and nothing keeps it from a place where another vertex arrives. Two vertices that meet are one
vertex from then on, with the triangles of both. So the connectivity stays just when the run blends a
place of its own for every vertex, and the places can be told from the neighbours and the rates.

Meeting is the exception: while the vertices are apart, one more pass lets two of them meet at one rate at
most. But it happens at ordinary rates, and to closed surfaces. Vertices with the same neighbours meet
in a pass that goes all the way.

* `Mesh.SameSharing`: corners share vertices as before.
* `Mesh.keepsApart_smoothed_iff`, `Mesh.vertexCount_movedTo_iff`: when no two vertices have met.
* `Mesh.encard_meeting_rates_le`: the rates at which vertices meet.
* `Mesh.smoothing_keeps_connectivity_iff`: the main result.
* `Mesh.bipyramid_apexes_meet`: a closed surface whose vertices meet.
-/

set_option autoImplicit false

namespace Isomesh

namespace Mesh

open Matrix

/-! ## Vertices that are shared as before -/

section Sharing

variable {K : Type} [Scalar K] {m moved : Mesh K}

/-- Whether a mesh has as many triangles as another one, and two of its corners have the same key just
where the corners at those places have in the other one. -/
def SameSharing (m moved : Mesh K) : Prop :=
  moved.triangles.length = m.triangles.length ∧
    ∀ i j : Nat, moved.cornerKeyList[i]? = moved.cornerKeyList[j]? ↔
      m.cornerKeyList[i]? = m.cornerKeyList[j]?

/-- Corners with one key go to one place, so a moved mesh only has to keep the others apart. -/
theorem sameSharing_iff_keepsApart (h : m.Moved moved) : m.SameSharing moved ↔ m.KeepsApart moved := by
  obtain ⟨place, htriangles⟩ := h
  refine ⟨fun hsame i j => (hsame.2 i j).1, fun hapart => ⟨?_, fun i j => ⟨hapart i j, fun heq => ?_⟩⟩⟩
  · rw [htriangles, List.length_map]
  · rw [cornerKeyList_of_moved htriangles, List.getElem?_map, List.getElem?_map, heq]

theorem KeepsApart.relabeled {coords : Array (Vec3 K)} (h : m.KeepsApart (m.movedTo coords))
    (hsize : coords.size = m.vertices.length) : m.Relabeled (m.movedTo coords) (m.placeIn coords) :=
  ⟨triangles_movedTo hsize, (keepsApart_iff_injOn (triangles_movedTo hsize)).1 h⟩

theorem built_movedTo (m : Mesh K) (coords : Array (Vec3 K)) : (m.movedTo coords).Built :=
  built_ofTriangles _

/-- A moved mesh keeps its corners apart just where it keeps the number of vertices. -/
theorem vertexCount_movedTo_iff (hm : m.Built) {coords : Array (Vec3 K)}
    (hsize : coords.size = m.vertices.length) :
    (m.movedTo coords).vertexCount = m.vertexCount ↔ m.KeepsApart (m.movedTo coords) := by
  have hmoved := m.built_movedTo coords
  have hfinite : (cornerKeys m.triangles).Finite :=
    (List.finite_toSet (m.vertices.map Vec3.key)).subset fun k hk => mem_cornerKeys_triangles.1 hk
  rw [vertexCount_eq_length_vertices hmoved.coherent hmoved.filled,
    vertexCount_eq_length_vertices hm.coherent hm.filled, length_vertices_eq_ncard,
    length_vertices_eq_ncard, triangles_movedTo hsize,
    cornerKeys_map (g := fun k => (m.placeIn coords k).key) fun _ => rfl, Set.ncard_image_iff hfinite,
    keepsApart_iff_injOn (triangles_movedTo hsize)]

end Sharing

variable {K : Type} [Field K] [LinearOrder K] [IsStrictOrderedRing K] [FloorRing K] [SquareRoot K]
variable {m : Mesh K} {rates : List K}

/-- In exact arithmetic vertices stay apart just where the run blends a place of its own for each. -/
theorem keepsApart_smoothed_iff (m : Mesh K) (rates : List K) :
    m.KeepsApart (m.movedTo (m.smoothedCoords rates)) ↔ Function.Injective (m.blended rates) := by
  have hkey : Function.Injective (Vec3.key : Vec3 K → VertexKey K) := fun _ _ => Exact.key_inj.1
  rw [keepsApart_movedTo_iff (size_smoothedCoords rates m), smoothedCoords_eq, Array.toList_ofFn,
    List.nodup_map_iff hkey, List.nodup_ofFn]

/-! ## Rates at which vertices meet -/

/-- The rates at which one more pass takes all members of a set of vertices to one place. -/
def meetingRates (m : Mesh K) (rates : List K) (e : Sym2 (Fin m.vertices.length)) : Set K :=
  {rate | ∀ n ∈ e, ∀ k ∈ e, m.blended (rates ++ [rate]) n = m.blended (rates ++ [rate]) k}

/-- Two vertices that are apart meet at one rate at most. -/
theorem encard_meetingRates_le {n k : Fin m.vertices.length}
    (h : m.blended rates n ≠ m.blended rates k) : (m.meetingRates rates s(n, k)).encard ≤ 1 := by
  obtain ⟨axis, haxis⟩ : ∃ axis, (m.blended rates n).get axis ≠ (m.blended rates k).get axis := by
    by_contra hall
    push Not at hall
    exact h (Vec3.ext_get hall)
  have hrate {rate : K} (hmeet : rate ∈ m.meetingRates rates s(n, k)) :
      (m.blended rates n).get axis - (m.blended rates k).get axis =
        rate * ((m.pull *ᵥ fun i => (m.blended rates i).get axis) k -
          (m.pull *ᵥ fun i => (m.blended rates i).get axis) n) := by
    have hplace := congrArg (fun p : Vec3 K => p.get axis)
      (hmeet n (Sym2.mem_mk_left n k) k (Sym2.mem_mk_right n k))
    simp only [get_blended_append] at hplace
    linarith
  refine Set.encard_le_one_iff.2 fun r s hr hs => ?_
  have hpull := (hrate hr).symm.trans (hrate hs)
  refine mul_right_cancel₀ (fun hzero => haxis ?_) hpull
  exact sub_eq_zero.1 (by rw [hrate hr, hzero, mul_zero])

theorem exists_mem_meetingRates {rate : K} (h : ¬Function.Injective (m.blended (rates ++ [rate]))) :
    ∃ n k, n ≠ k ∧ rate ∈ m.meetingRates rates s(n, k) := by
  simp only [Function.Injective, not_forall] at h
  obtain ⟨n, k, heq, hne⟩ := h
  refine ⟨n, k, hne, fun a ha b hb => ?_⟩
  rcases Sym2.mem_iff.1 ha with rfl | rfl <;> rcases Sym2.mem_iff.1 hb with rfl | rfl
  · rfl
  · exact heq
  · exact heq.symm
  · rfl

/-- **While the vertices are apart,** they meet at no more rates than there are pairs of them. -/
theorem encard_meeting_rates_le (h : Function.Injective (m.blended rates)) :
    {rate | ¬Function.Injective (m.blended (rates ++ [rate]))}.encard ≤
      (m.vertices.length.choose 2 : ℕ) := by
  let pairs := (Finset.univ : Finset (Fin m.vertices.length)).offDiag.image (Function.uncurry Sym2.mk)
  have hcard : pairs.card = m.vertices.length.choose 2 := by
    rw [Sym2.card_image_offDiag, Finset.card_univ, Fintype.card_fin]
  have hcover : {rate | ¬Function.Injective (m.blended (rates ++ [rate]))} ⊆
      ⋃ e ∈ pairs, m.meetingRates rates e := by
    intro rate hrate
    obtain ⟨n, k, hne, hmeet⟩ := exists_mem_meetingRates hrate
    have hpair : (n, k) ∈ (Finset.univ : Finset (Fin m.vertices.length)).offDiag := by simpa using hne
    exact Set.mem_iUnion₂.2 ⟨s(n, k), Finset.mem_image_of_mem _ hpair, hmeet⟩
  have hone : ∀ e ∈ pairs, (m.meetingRates rates e).encard ≤ 1 := by
    intro e he
    obtain ⟨⟨n, k⟩, hpair, rfl⟩ := Finset.mem_image.1 he
    exact encard_meetingRates_le fun heq => (Finset.mem_offDiag.1 hpair).2.2 (h heq)
  calc {rate | ¬Function.Injective (m.blended (rates ++ [rate]))}.encard
      ≤ (⋃ e ∈ pairs, m.meetingRates rates e).encard := Set.encard_le_encard hcover
    _ ≤ ∑ e ∈ pairs, (m.meetingRates rates e).encard := pairs.set_encard_biUnion_le _
    _ ≤ ∑ _e ∈ pairs, 1 := Finset.sum_le_sum hone
    _ = (m.vertices.length.choose 2 : ℕ) := by rw [Finset.sum_const, hcard, nsmul_one]

/-! ## Main result -/

/-- **When smoothing keeps connectivity.** Smoothing always returns the triangles in their order, with all
corners of a key at one place. Corners share vertices as before just where the run blends a place of its
own for every vertex, and just then the number of vertices stays; the numbers of edges and of irregular
edges stay, too. A mesh without passes has its vertices apart. From any run that keeps them apart, one
more pass does so at all rates except for at most one for each pair of vertices. -/
theorem smoothing_keeps_connectivity_iff (hm : m.Built) (rates : List K) :
    (∃ smoothed, m.smooth rates = .ok smoothed ∧ m.Moved smoothed ∧
      smoothed.triangleCount = m.triangleCount ∧
      (m.SameSharing smoothed ↔ Function.Injective (m.blended rates)) ∧
      (smoothed.vertexCount = m.vertexCount ↔ Function.Injective (m.blended rates)) ∧
      (Function.Injective (m.blended rates) → smoothed.edges.length = m.edges.length ∧
        smoothed.irregularEdges = m.irregularEdges)) ∧
    Function.Injective (m.blended []) ∧
    (Function.Injective (m.blended rates) →
      {rate | ¬Function.Injective (m.blended (rates ++ [rate]))}.encard ≤
        (m.vertices.length.choose 2 : ℕ)) := by
  have hsize := size_smoothedCoords rates m
  have hmoved := moved_movedTo hsize
  have hapart := m.keepsApart_smoothed_iff rates
  refine ⟨⟨_, smooth_eq_ok (fun rate _ => Exact.isFinite_eq_true rate) m, hmoved, ?_,
    (sameSharing_iff_keepsApart hmoved).trans hapart, (vertexCount_movedTo_iff hm hsize).trans hapart,
    fun h => ?_⟩, ?_, encard_meeting_rates_le⟩
  · rw [triangleCount_eq_length, triangleCount_eq_length, triangles_movedTo hsize, List.length_map]
  · have hrelabeled := (hapart.2 h).relabeled hsize
    exact ⟨hrelabeled.length_edges,
      hrelabeled.irregularEdges_eq hm.coherent (m.built_movedTo _).coherent⟩
  · rw [← keepsApart_smoothed_iff, keepsApart_movedTo_iff (size_smoothedCoords [] m)]
    exact m.nodup_key_vertices

/-- Half a pass leaves the vertices of the two pyramids apart. -/
theorem bipyramid_keeps_connectivity : ∃ smoothed, (ofTriangles bipyramid).smooth [1 / 2] = .ok smoothed ∧
    (ofTriangles bipyramid).SameSharing smoothed ∧ smoothed.vertexCount = 5 ∧
    smoothed.edges.length = 9 ∧ smoothed.irregularEdges = 0 := by
  obtain ⟨⟨smoothed, hsmooth, -, -, hsame, hvertices, hcounts⟩, -, -⟩ :=
    smoothing_keeps_connectivity_iff (built_ofTriangles bipyramid) [1 / 2]
  have hfive : (ofTriangles bipyramid).vertexCount = 5 := by decide +kernel
  have hstays : smoothed.vertexCount = 5 := by
    rw [smooth_eq_ok (by decide +kernel)] at hsmooth
    cases hsmooth
    decide +kernel
  have hapart := hvertices.1 (hstays.trans hfive.symm)
  obtain ⟨hedges, hirregular⟩ := hcounts hapart
  exact ⟨smoothed, hsmooth, hsame.2 hapart, hstays, hedges.trans (by decide +kernel),
    hirregular.trans (by decide +kernel)⟩

/-- **Smoothing can join vertices.** The apexes of the two pyramids have the same neighbours and go to the
mean of these. A closed surface with nine edges becomes one with six, of which three have four
triangles. -/
theorem bipyramid_apexes_meet : ∃ smoothed, (ofTriangles bipyramid).smooth [1] = .ok smoothed ∧
    ¬(ofTriangles bipyramid).SameSharing smoothed ∧
    (ofTriangles bipyramid).vertexCount = 5 ∧ smoothed.vertexCount = 4 ∧
    (ofTriangles bipyramid).edges.length = 9 ∧ smoothed.edges.length = 6 ∧
    (ofTriangles bipyramid).irregularEdges = 0 ∧ smoothed.irregularEdges = 3 := by
  have hsize := size_smoothedCoords [1] (ofTriangles bipyramid)
  refine ⟨_, smooth_eq_ok (by decide +kernel) _, ?_, by decide +kernel, by decide +kernel,
    by decide +kernel, by decide +kernel, by decide +kernel, by decide +kernel⟩
  rw [sameSharing_iff_keepsApart (moved_movedTo hsize), keepsApart_movedTo_iff hsize]
  decide +kernel

end Mesh

end Isomesh
