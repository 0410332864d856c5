import Mathlib
import Isomesh.Proofs.NestedBounds
import Isomesh.Proofs.SmoothingPasses

/-!
# Smoothing stays within the box of a mesh

In exact arithmetic and at rates between zero and one, a pass moves each vertex to a point between its old
place and the mean of its neighbours' old places. A box that contains all places contains their means and
all points between them, so it contains all places after the pass. From pass to pass that keeps the
vertices in the box in which the mesh was in the beginning.

* `Bounds.contains_meanOf`, `Bounds.contains_relaxed`: one vertex.
* `contains_relax`: one pass.
* `Mesh.contains_smoothedCoords`: a whole run.
* `Mesh.smoothing_stays_in_bounds`: the main result.
-/

set_option autoImplicit false

namespace Isomesh

/-- Where a pass takes a vertex. -/
theorem getElem?_relax_eq_some_iff {K : Type} [Scalar K] {rings : List (List Nat)}
    {coords : Array (Vec3 K)} {rate : K} {n : Nat} {q : Vec3 K} :
    (relax rings coords rate)[n]? = some q ↔ ∃ p ring, coords[n]? = some p ∧ rings[n]? = some ring ∧
      relaxed rate p (ring.filterMap (coords[·]?)) = q := by
  rw [relax, List.getElem?_toArray, List.getElem?_zipWith_eq_some]
  simp only [Array.getElem?_toList]

variable {K : Type} [Field K] [LinearOrder K] [IsStrictOrderedRing K] [FloorRing K] [SquareRoot K]

namespace Vec3

theorem get_sum (vs : List (Vec3 K)) (axis : Axis) :
    (sum vs).get axis = (vs.map fun v => v.get axis).sum := by
  have hzero : (zero : Vec3 K).get axis = 0 := by cases axis <;> rfl
  rw [sum, List.sum_eq_foldl, List.foldl_map, ← hzero]
  symm
  exact List.foldl_hom (fun v : Vec3 K => v.get axis) fun u v => (get_add u v axis).symm

end Vec3

/-! ## One vertex -/

namespace Bounds

variable {box : Bounds K}

/-- A box contains the mean of points that it contains. -/
theorem contains_meanOf {ps : List (Vec3 K)} (hne : ps ≠ []) (h : ∀ p ∈ ps, box.contains p = true) :
    box.contains (meanOf ps) = true := by
  refine contains_iff.2 fun axis => ?_
  have hlength : 0 < (ps.length : K) := Nat.cast_pos.2 (List.length_pos_iff.2 hne)
  have hcoords : ∀ c ∈ ps.map fun p => p.get axis, box.lo.get axis ≤ c ∧ c ≤ box.hi.get axis :=
    List.forall_mem_map.2 fun p hp => contains_iff.1 (h p hp) axis
  have hlo := List.card_nsmul_le_sum _ _ fun c hc => (hcoords c hc).1
  have hhi := List.sum_le_card_nsmul _ _ fun c hc => (hcoords c hc).2
  rw [List.length_map, nsmul_eq_mul, mul_comm] at hlo hhi
  rw [meanOf, Vec3.get_divide, Vec3.get_sum]
  exact ⟨(le_div_iff₀ hlength).2 hlo, (div_le_iff₀ hlength).2 hhi⟩

/-- A box contains the points between two points that it contains. -/
theorem contains_between {p q : Vec3 K} {rate : K} (hrate : 0 ≤ rate ∧ rate ≤ 1)
    (hp : box.contains p = true) (hq : box.contains q = true) :
    box.contains (p.scale (1 - rate) + q.scale rate) = true := by
  refine contains_iff.2 fun axis => ?_
  obtain ⟨hlo, hhi⟩ := contains_iff.1 hp axis
  obtain ⟨hlo', hhi'⟩ := contains_iff.1 hq axis
  have hleft : 0 ≤ 1 - rate := sub_nonneg.2 hrate.2
  rw [Vec3.get_add, Vec3.get_scale, Vec3.get_scale]
  constructor
  · have h1 := mul_le_mul_of_nonneg_right hlo hleft
    have h2 := mul_le_mul_of_nonneg_right hlo' hrate.1
    linarith
  · have h1 := mul_le_mul_of_nonneg_right hhi hleft
    have h2 := mul_le_mul_of_nonneg_right hhi' hrate.1
    linarith

theorem contains_relaxed {p : Vec3 K} {around : List (Vec3 K)} {rate : K}
    (hrate : 0 ≤ rate ∧ rate ≤ 1) (hp : box.contains p = true)
    (haround : ∀ q ∈ around, box.contains q = true) :
    box.contains (relaxed rate p around) = true := by
  unfold relaxed
  split
  · exact hp
  · rename_i hne
    exact contains_between hrate hp (contains_meanOf (by simpa using hne) haround)

end Bounds

/-! ## Passes -/

/-- **A pass keeps all vertices in a box.** -/
theorem contains_relax {box : Bounds K} {rings : List (List Nat)} {coords : Array (Vec3 K)} {rate : K}
    (hrate : 0 ≤ rate ∧ rate ≤ 1) (h : ∀ p ∈ coords, box.contains p = true) :
    ∀ q ∈ relax rings coords rate, box.contains q = true := by
  intro q hq
  obtain ⟨n, hn⟩ := Array.mem_iff_getElem?.1 hq
  obtain ⟨p, ring, hp, -, rfl⟩ := getElem?_relax_eq_some_iff.1 hn
  refine Bounds.contains_relaxed hrate (h p (Array.mem_of_getElem? hp)) fun r hr => ?_
  obtain ⟨k, -, hk⟩ := List.mem_filterMap.1 hr
  exact h r (Array.mem_of_getElem? hk)

namespace Mesh

variable {m : Mesh K} {rates : List K}

theorem contains_smoothedCoords {box : Bounds K} (hrates : ∀ rate ∈ rates, 0 ≤ rate ∧ rate ≤ 1)
    (h : ∀ t ∈ m.triangles, ∀ p ∈ t.corners, box.contains p = true) :
    ∀ p ∈ m.smoothedCoords rates, box.contains p = true := by
  refine List.foldlRecOn (motive := fun coords : Array (Vec3 K) => ∀ p ∈ coords, box.contains p = true)
    rates _ (fun v hv => ?_) fun coords hcoords rate hrate => contains_relax (hrates rate hrate) hcoords
  obtain ⟨t, ht, hvt⟩ := exists_corner_of_vertex (List.mem_toArray.1 hv)
  exact h t ht v hvt

/-! ## Main result -/

/-- **Smoothing stays within the box of a mesh.** At rates between zero and one, the smoothed mesh has all
vertices in the box of the mesh, so its own box is within that one. -/
theorem smoothing_stays_in_bounds (hm : m.isEmpty = false)
    (hrates : ∀ rate ∈ rates, 0 ≤ rate ∧ rate ≤ 1) :
    ∃ smoothed box smoothedBox, m.smooth rates = .ok smoothed ∧ m.bounds? = some box ∧
      smoothed.bounds? = some smoothedBox ∧ (∀ v ∈ smoothed.vertices, box.contains v = true) ∧
      smoothedBox.Within box := by
  have hne : m.triangles ≠ [] := by
    rintro hnil
    simp [isEmpty, triangleCount_eq_length, hnil] at hm
  have hsize := size_smoothedCoords rates m
  have hsmoothed : (m.movedTo (m.smoothedCoords rates)).triangles ≠ [] := by
    rw [triangles_movedTo hsize]
    simpa using hne
  obtain ⟨box, hbox, hwithin⟩ := exists_bounds hne
  obtain ⟨smoothedBox, hsmoothedBox, hwithin'⟩ := exists_bounds hsmoothed
  have hplaces := contains_smoothedCoords hrates ((hwithin box).1 (.refl box))
  have hcorners : ∀ t ∈ (m.movedTo (m.smoothedCoords rates)).triangles, ∀ p ∈ t.corners,
      box.contains p = true := fun t ht p hp => hplaces p (mem_of_corner_movedTo hsize ht hp)
  refine ⟨_, box, smoothedBox, smooth_eq_ok (fun rate _ => Exact.isFinite_eq_true rate) m, hbox,
    hsmoothedBox, fun v hv => ?_, (hwithin' box).2 hcorners⟩
  obtain ⟨t, ht, hvt⟩ := exists_corner_of_vertex hv
  exact hcorners t ht v hvt

/-- A pyramid over a triangle and another one under it, of other height. -/
def bipyramid : List (Triangle ℚ) :=
  [⟨⟨2, 2, 6⟩, ⟨6, 0, 0⟩, ⟨0, 6, 0⟩⟩, ⟨⟨2, 2, 6⟩, ⟨0, 6, 0⟩, ⟨0, 0, 0⟩⟩,
    ⟨⟨2, 2, 6⟩, ⟨0, 0, 0⟩, ⟨6, 0, 0⟩⟩, ⟨⟨2, 2, -3⟩, ⟨0, 6, 0⟩, ⟨6, 0, 0⟩⟩,
    ⟨⟨2, 2, -3⟩, ⟨0, 0, 0⟩, ⟨0, 6, 0⟩⟩, ⟨⟨2, 2, -3⟩, ⟨6, 0, 0⟩, ⟨0, 0, 0⟩⟩]

/-- The two pyramids and a triangle of a single point, which has no neighbours. -/
def bipyramidAndPoint : Mesh ℚ := .ofTriangles (bipyramid ++ [⟨⟨8, 0, 0⟩, ⟨8, 0, 0⟩, ⟨8, 0, 0⟩⟩])

/-- One pass goes half the way and one all the way to the means of the neighbours. -/
theorem bipyramidAndPoint_stays_in_bounds : ∃ smoothed smoothedBox,
    bipyramidAndPoint.smooth [1 / 2, 1] = .ok smoothed ∧ smoothed.bounds? = some smoothedBox ∧
      (∀ v ∈ smoothed.vertices, (⟨⟨0, 0, -3⟩, ⟨8, 6, 6⟩⟩ : Bounds ℚ).contains v = true) ∧
      smoothedBox.Within ⟨⟨0, 0, -3⟩, ⟨8, 6, 6⟩⟩ := by
  have hm : bipyramidAndPoint.isEmpty = false := by decide +kernel
  have hrates : ∀ rate ∈ [(1 / 2 : ℚ), 1], 0 ≤ rate ∧ rate ≤ 1 := by decide +kernel
  have hbounds : bipyramidAndPoint.bounds? = some ⟨⟨0, 0, -3⟩, ⟨8, 6, 6⟩⟩ := by decide +kernel
  obtain ⟨smoothed, box, smoothedBox, hsmooth, hbox, hrest⟩ := smoothing_stays_in_bounds hm hrates
  obtain rfl := Option.some.inj (hbox.symm.trans hbounds)
  exact ⟨smoothed, smoothedBox, hsmooth, hrest⟩

end Mesh

end Isomesh
