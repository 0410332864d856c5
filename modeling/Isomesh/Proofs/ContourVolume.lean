import Mathlib
import Isomesh.Proofs.ClosedSurface
import Isomesh.Proofs.SignedVolume
import Isomesh.Proofs.StencilVolume

/-!
# The volume of a sampled surface

The surface in a cell and the inside parts of its faces bound the inside part of the cell. Neighbouring
cells see the same inside part of their common face from opposite sides, so over all cells the faces
cancel out: the volume of the unrefined surface is the sum of the inside parts of the cells. It is
positive as soon as a lattice point is inside.

* `Lattice.triple_placeTriangle`: a stencil triangle in its place.
* `Lattice.faceMoment_across`: a face from both sides.
* `Lattice.sixfoldVolume_directSurface`: the surface in all cells.
* `contour_volume`: the main result.
-/

set_option autoImplicit false

namespace Isomesh

variable {K : Type} [Field K] [LinearOrder K] [IsStrictOrderedRing K] [FloorRing K] [SquareRoot K]

theorem Axis.sum_all (g : Axis → K) : (all.map g).sum = g .x + g .y + g .z := by
  simp [all, add_assoc]

theorem sixfoldVolume_flatMap {α : Type} (as : List α) (f : α → List (Triangle K)) :
    sixfoldVolume (as.flatMap f) = (as.map fun a => sixfoldVolume (f a)).sum := by
  induction as with
  | nil => rfl
  | cons a as ih => rw [List.flatMap_cons, sixfoldVolume_append, ih, List.map_cons, List.sum_cons]

/-! ## Neighbouring cells -/

namespace Cell

variable {f : CubeFace} {c d d' : Cell}

theorem Across.symm (h : Across f c d) : Across f.opposite d c := by
  intro axis
  have haxis := h axis
  cases hupper : f.upper <;> simp [CubeFace.opposite, hupper] at haxis ⊢ <;> omega

theorem Across.eq (h : Across f c d) (h' : Across f c d') : d = d' := by
  refine ext fun axis => ?_
  have haxis := h axis
  have haxis' := h' axis
  omega

/-- The next cell along an axis. -/
def next (axis : Axis) (c : Cell) : Cell := .ofFn fun a => c.along a + if a = axis then 1 else 0

theorem across_next (axis : Axis) (c : Cell) : Across ⟨axis, true⟩ c (c.next axis) := by
  intro a
  simp [next]

end Cell

namespace Lattice

variable {l : Lattice K} {solid : Solid K} {c d : Cell}

/-! ## One cell -/

/-- A stencil triangle in its place: the cone over it from the lowest corner of the cell, and what the
distance of that corner from the origin adds. -/
theorem triple_placeTriangle (l : Lattice K) (c : Cell) (t : StencilTriangle) :
    (l.placeTriangle c.1 c.2.1 c.2.2 t).triple = (l.delta / 2) ^ 3 * t.cone +
      (l.delta / 2) ^ 2 *
        (Axis.all.map fun axis => l.coord axis (c.along axis) * t.areaNormal axis).sum := by
  simp only [Triangle.triple, placeTriangle, edgeMidpoint_eq, halfPoint, Cell.half, Vec3.ofFn,
    Vec3.get, Vec3.dot, Vec3.cross, mul_half_eq, StencilTriangle.cone, tripleProduct, Axis.sum_all,
    StencilTriangle.areaNormal, crossProduct, middleTo, coord]
  push_cast
  ring

theorem sixfoldVolume_placeTriangle (l : Lattice K) (c : Cell) (s : Stencil) :
    sixfoldVolume (s.map (l.placeTriangle c.1 c.2.1 c.2.2)) = (l.delta / 2) ^ 3 * s.cone +
      (l.delta / 2) ^ 2 *
        (Axis.all.map fun axis => l.coord axis (c.along axis) * s.areaNormal axis).sum := by
  induction s with
  | nil => simp [sixfoldVolume, Stencil.cone, Stencil.areaNormal]
  | cons t s ih =>
    simp only [sixfoldVolume, Stencil.cone, Stencil.areaNormal, List.map_cons, List.sum_cons,
      Axis.sum_all] at ih ⊢
    rw [ih, triple_placeTriangle, Axis.sum_all]
    push_cast
    ring

/-- The inside part of a face times the coordinate of the face along its axis. -/
def faceMoment (l : Lattice K) (solid : Solid K) (f : CubeFace) (c : Cell) : K :=
  l.coord f.axis (c.along f.axis + if f.upper then 1 else 0) *
    faceArea ((l.maskOf solid c).around f)

/-- The surface in a cell: the inside part of the cell, and what remains for its neighbours. -/
theorem sixfoldVolume_directCell (l : Lattice K) (solid : Solid K) (c : Cell) :
    sixfoldVolume (Window.directCell l solid c) =
      (l.delta / 2) ^ 3 * (l.maskOf solid c).stencil.parts (l.maskOf solid c) +
        (l.delta / 2) ^ 2 * (Axis.all.map fun axis =>
          l.faceMoment solid ⟨axis, false⟩ c - l.faceMoment solid ⟨axis, true⟩ c).sum := by
  have hnormal (axis : Axis) : ((l.maskOf solid c).stencil.areaNormal axis : K) =
      faceArea ((l.maskOf solid c).around ⟨axis, false⟩) -
        faceArea ((l.maskOf solid c).around ⟨axis, true⟩) := by
    have hclosed := congrArg (Int.cast (R := K)) ((l.maskOf solid c).stencil_accounts.closed axis)
    push_cast at hclosed
    linear_combination hclosed
  change sixfoldVolume ((l.maskOf solid c).stencil.map (l.placeTriangle c.1 c.2.1 c.2.2)) = _
  rw [sixfoldVolume_placeTriangle]
  simp only [Stencil.parts, faceMoment, hnormal, coord, Axis.all, List.map_cons, List.map_nil,
    List.sum_cons, List.sum_nil]
  push_cast
  ring

/-! ## All cells -/

/-- A face has the same moment from both sides. -/
theorem faceMoment_across {f : CubeFace} (h : Cell.Across f c d) :
    l.faceMoment solid f c = l.faceMoment solid f.opposite d := by
  have haround : (l.maskOf solid d).around f.opposite =
      fun n => (l.maskOf solid c).around f (-n) := funext (around_opposite h)
  have hplace : c.along f.axis + (if f.upper then 1 else 0) =
      d.along f.opposite.axis + if f.opposite.upper then 1 else 0 := by
    have haxis := h f.axis
    cases hupper : f.upper <;> simpa [CubeFace.opposite, hupper] using haxis
  rw [faceMoment, faceMoment, haround, faceArea_reflect, hplace]
  rfl

/-- Where a face has a moment there is a cell on the other side. -/
theorem exists_across_of_faceMoment (hclean : ∀ k < l.nz, ¬l.HasStray solid k) {f : CubeFace}
    (hc : c ∈ l.cells) (h : l.faceMoment solid f c ≠ 0) :
    ∃ d ∈ l.cells, Cell.Across f c d := by
  have harea : faceArea ((l.maskOf solid c).around f) ≠ 0 := by
    intro hzero
    rw [faceMoment, hzero, Nat.cast_zero, mul_zero] at h
    exact h rfl
  obtain ⟨n, hn⟩ := exists_of_faceArea_ne_zero _ harea
  exact exists_across hclean hc hn

/-- **Over all cells the faces cancel out.** -/
theorem sum_faceMoment (hclean : ∀ k < l.nz, ¬l.HasStray solid k) (axis : Axis) :
    ∑ c ∈ l.cells.toFinset, l.faceMoment solid ⟨axis, true⟩ c =
      ∑ c ∈ l.cells.toFinset, l.faceMoment solid ⟨axis, false⟩ c := by
  have hnext {c : Cell} (hc : c ∈ l.cells.toFinset) (h : l.faceMoment solid ⟨axis, true⟩ c ≠ 0) :
      c.next axis ∈ l.cells.toFinset := by
    obtain ⟨d, hd, hacross⟩ := exists_across_of_faceMoment hclean (List.mem_toFinset.1 hc) h
    exact List.mem_toFinset.2 (hacross.eq (Cell.across_next axis c) ▸ hd)
  refine Finset.sum_bij_ne_zero (fun c _ _ => Cell.next axis c) (fun c hc h => hnext hc h)
    (fun c _ _ d _ _ heq => ?_) (fun d hd h => ?_)
    (fun c _ _ => faceMoment_across (Cell.across_next axis c))
  · have hback := (Cell.across_next axis d).symm
    rw [← heq] at hback
    exact (Cell.across_next axis c).symm.eq hback
  · obtain ⟨c, hc, hacross⟩ := exists_across_of_faceMoment hclean (List.mem_toFinset.1 hd) h
    have hback : Cell.Across ⟨axis, true⟩ c d := hacross.symm
    rw [faceMoment_across hacross] at h
    exact ⟨c, List.mem_toFinset.2 hc, h, (Cell.across_next axis c).eq hback⟩

/-- **The volume of the surface in all cells** is that of their inside parts. -/
theorem sixfoldVolume_directSurface (hclean : ∀ k < l.nz, ¬l.HasStray solid k) :
    sixfoldVolume (l.directSurface solid) / 6 =
      l.delta ^ 3 * (l.cells.map fun c => ((l.maskOf solid c).fill : K)).sum := by
  have hsurface : l.directSurface solid = l.cells.flatMap (Window.directCell l solid) := rfl
  have hcancel : ∑ c ∈ l.cells.toFinset, (Axis.all.map fun axis =>
      l.faceMoment solid ⟨axis, false⟩ c - l.faceMoment solid ⟨axis, true⟩ c).sum = 0 := by
    simp only [Axis.sum_all, Finset.sum_add_distrib, Finset.sum_sub_distrib, sum_faceMoment hclean,
      sub_self, add_zero]
  rw [hsurface, sixfoldVolume_flatMap, ← List.sum_toFinset _ l.nodup_cells,
    ← List.sum_toFinset _ l.nodup_cells]
  simp only [sixfoldVolume_directCell, Finset.sum_add_distrib, ← Finset.mul_sum, hcancel,
    CornerMask.fill, Rat.cast_div, Rat.cast_intCast, Rat.cast_ofNat, ← Finset.sum_div]
  ring

/-- An inside lattice point is the lowest corner of a cell. -/
theorem exists_cell_of_contains (hclean : ∀ k < l.nz, ¬l.HasStray solid k) {i j k : Nat}
    (hi : i < l.nx) (hj : j < l.ny) (hk : k < l.nz) (h : solid.contains (l.corner i j k) = true) :
    (i, j, k) ∈ l.cells ∧ l.maskOf solid (i, j, k) ≠ 0 := by
  have hborder : l.isBorder i j k = false := by
    by_contra hb
    exact hclean k hk ⟨i, j, hi, hj, Bool.eq_true_of_not_eq_false hb, h⟩
  simp only [isBorder, Bool.or_eq_false_iff, decide_eq_false_iff_not] at hborder
  refine ⟨mem_cells.2 fun axis => ?_, fun hmask => ?_⟩
  · cases axis <;> simp only [Cell.along, count] <;> omega
  · have hhas : (l.maskOf solid (i, j, k)).has 0 = solid.contains (l.corner i j k) :=
      l.has_directMask solid i j k 0
    rw [hmask, h] at hhas
    revert hhas
    decide

end Lattice

/-! ## Main result -/

/-- **The volume of a sampled surface.** A cell is filled according to its inside corners: not at all
without any, wholly with all, and otherwise to a part that depends on nothing else. The signed volume of
an unrefined surface is the sum of what is filled, whatever points the solid contains. So it is positive
as soon as a lattice point is inside. -/
theorem contour_volume :
    ((0 : CornerMask).fill = 0 ∧ CornerMask.fill (.allOnes 8) = 1 ∧
      ∀ m : CornerMask, m ≠ 0 → m ≠ .allOnes 8 → 0 < m.fill ∧ m.fill < 1) ∧
    ∀ (solid : Solid K) (r : Resolution K) (mesh : Mesh K), r.refinements = 0 →
      contour solid r = .ok mesh → ∃ l, Lattice.around solid.bounds r.delta = .ok l ∧
        sixfoldVolume mesh.triangles / 6 =
          r.delta ^ 3 * (l.cells.map fun c => ((l.maskOf solid c).fill : K)).sum ∧
        ∀ i j k, i < l.nx → j < l.ny → k < l.nz → solid.contains (l.corner i j k) = true →
          0 < sixfoldVolume mesh.triangles / 6 := by
  refine ⟨⟨CornerMask.fill_zero, CornerMask.fill_allOnes, fun m hzero hones =>
    ⟨CornerMask.fill_pos hzero, CornerMask.fill_lt_one hones⟩⟩, fun solid r mesh hr h => ?_⟩
  unfold contour at h
  obtain ⟨⟨l, rough⟩, hrough, h⟩ := exists_of_bind_eq_ok h
  obtain ⟨hl, hclean, rfl⟩ := roughContour_eq_ok hrough
  obtain ⟨hdelta, hd⟩ := Lattice.delta_of_around hl
  rw [hdelta] at hd
  dsimp only at h
  rw [if_pos hr] at h
  cases h
  have hvolume := Lattice.sixfoldVolume_directSurface hclean
  rw [hdelta] at hvolume
  rw [Mesh.triangles_ofTriangles, hvolume]
  refine ⟨l, hl, rfl, fun i j k hi hj hk hinside => ?_⟩
  obtain ⟨hcell, hmask⟩ := Lattice.exists_cell_of_contains hclean hi hj hk hinside
  have hnonneg : ∀ x ∈ l.cells.map fun c => ((l.maskOf solid c).fill : K), 0 ≤ x :=
    List.forall_mem_map.2 fun c _ => Rat.cast_nonneg.2 (CornerMask.fill_nonneg _)
  have hfill : ((l.maskOf solid (i, j, k)).fill : K) ≤
      (l.cells.map fun c => ((l.maskOf solid c).fill : K)).sum :=
    List.single_le_sum hnonneg _ (List.mem_map.2 ⟨_, hcell, rfl⟩)
  exact mul_pos (pow_pos hd 3) ((Rat.cast_pos.2 (CornerMask.fill_pos hmask)).trans_le hfill)

/-- Three lattice points above each other fill as much as a cell and a sixth. -/
theorem column_volume : ∃ mesh, contour column ⟨1, 0, 2⟩ = .ok mesh ∧
    sixfoldVolume mesh.triangles / 6 = 7 / 6 := by
  have hcount : (contour column ⟨1, 0, 2⟩).map Mesh.triangleCount = .ok 24 := by decide +kernel
  cases h : contour column ⟨1, 0, 2⟩ with
  | error e =>
    rw [h] at hcount
    cases hcount
  | ok mesh =>
    obtain ⟨l, hl, hvolume, -⟩ := contour_volume.2 column ⟨1, 0, 2⟩ mesh rfl h
    have htower : Lattice.around column.bounds 1 = .ok Window.tower := by decide +kernel
    obtain rfl : l = Window.tower := Except.ok.inj (hl.symm.trans htower)
    refine ⟨mesh, rfl, hvolume.trans ?_⟩
    simp only [Rat.cast_id]
    decide +kernel

end Isomesh
