import Mathlib
import Isomesh.Proofs.StencilNormals

/-!
# The part of a cell inside a stencil

A stencil is closed up by the inside parts of the faces of its cell: around each face the inside
corners form runs, and the surface cuts every run off along a straight line. The closed surface bounds
the inside part of the cell. So its area normals add up to zero, and the cones over it from the lowest
corner of the cell measure the inside part.

Lengths are in halves of the cell size, areas and volumes are taken twice and six times. A face has 8
parts then and a cell 48. The table is checked as a whole, for all patterns in all positions.

* `faceArea`: the inside part of a face.
* `Stencil.parts`: the inside part of a cell.
* `CornerMask.stencil_accounts`: every stencil is closed up by the faces, and cuts a proper part off.
-/

set_option autoImplicit false

namespace Isomesh

/-! ## Faces -/

/-- The inside part of a face. A run takes one part for its first corner and three for each other one,
half the face for two corners; all four together take the whole face. -/
def faceArea (inside : Fin 4 → Bool) : Nat :=
  min 8 ((CubeFace.places.zip (CubeFace.places.rotate 1)).map fun (n, next) =>
    if inside n then if inside next then 3 else 1 else 0).sum

/-- Seen from the other side a face has the same inside part. -/
theorem faceArea_reflect : ∀ inside : Fin 4 → Bool,
    faceArea (fun n => inside (-n)) = faceArea inside := by
  decide +kernel

theorem exists_of_faceArea_ne_zero : ∀ inside : Fin 4 → Bool,
    faceArea inside ≠ 0 → ∃ n, inside n = true := by
  decide +kernel

/-! ## Stencils -/

/-- The vector at right angles to two vectors, by the right-hand rule. -/
def crossProduct (u v : Axis → Int) : Axis → Int
  | .x => u .y * v .z - u .z * v .y
  | .y => u .z * v .x - u .x * v .z
  | .z => u .x * v .y - u .y * v .x

namespace StencilTriangle

/-- The area normal of the triangle. -/
def areaNormal (t : StencilTriangle) : Axis → Int :=
  crossProduct (middleTo t.a.ends t.b.ends) (middleTo t.a.ends t.c.ends)

/-- The volume of the cone over the triangle from the lowest corner of the cell. -/
def cone (t : StencilTriangle) : Int :=
  tripleProduct (fun axis => edgeAlong axis t.a.ends) (fun axis => edgeAlong axis t.b.ends)
    fun axis => edgeAlong axis t.c.ends

end StencilTriangle

namespace Stencil

/-- The sum of the area normals along an axis. -/
def areaNormal (s : Stencil) (axis : Axis) : Int := (s.map fun t => t.areaNormal axis).sum

/-- The volume of the cones over all triangles. -/
def cone (s : Stencil) : Int := (s.map StencilTriangle.cone).sum

/-- The inside part of a cell: the cones over the stencil and over the inside parts of the upper faces.
The lower faces contain the tip of the cones. -/
def parts (m : CornerMask) (s : Stencil) : Int :=
  s.cone + 2 * (Axis.all.map fun axis => faceArea (m.around ⟨axis, true⟩)).sum

/-- Whether a stencil together with the inside parts of the faces bounds a part of the cell. -/
structure Accounts (m : CornerMask) (s : Stencil) : Prop where
  closed : ∀ axis, s.areaNormal axis + faceArea (m.around ⟨axis, true⟩) -
    faceArea (m.around ⟨axis, false⟩) = 0
  range : 0 ≤ parts m s ∧ parts m s ≤ 48
  empty : parts m s = 0 ↔ m = 0
  full : parts m s = 48 ↔ m = .allOnes 8

/-- The test behind `Accounts`. -/
def accounts (m : CornerMask) (s : Stencil) : Bool :=
  (Axis.all.all fun axis => decide (s.areaNormal axis + faceArea (m.around ⟨axis, true⟩) -
    faceArea (m.around ⟨axis, false⟩) = 0)) &&
  decide (0 ≤ parts m s ∧ parts m s ≤ 48) && decide (parts m s = 0 ↔ m = 0) &&
  decide (parts m s = 48 ↔ m = .allOnes 8)

theorem accounts_of_accounts {m : CornerMask} {s : Stencil} (h : accounts m s = true) :
    Accounts m s := by
  simp only [accounts, Bool.and_eq_true, List.all_eq_true, decide_eq_true_eq] at h
  obtain ⟨⟨⟨hclosed, hrange⟩, hempty⟩, hfull⟩ := h
  exact ⟨fun axis => hclosed axis axis.mem_all, hrange, hempty, hfull⟩

theorem accounts_positions : (positions.all fun p => accounts p.1 p.2) = true := by decide +kernel

end Stencil

namespace CornerMask

/-- **Every stencil accounts for a part of its cell**: for nothing without inside corners, for
everything with all corners inside, and for a proper part otherwise. -/
theorem stencil_accounts (m : CornerMask) : m.stencil.Accounts m := by
  rw [stencil_eq_find]
  have haccounts := List.all_eq_true.1 Stencil.accounts_positions _ (Stencil.find_mem_positions m)
  exact Stencil.accounts_of_accounts haccounts

/-- How much of a cell is inside. -/
def fill (m : CornerMask) : ℚ := m.stencil.parts m / 48

theorem fill_zero : (0 : CornerMask).fill = 0 := by
  rw [fill, (stencil_accounts 0).empty.2 rfl, Int.cast_zero, zero_div]

theorem fill_allOnes : fill (.allOnes 8) = 1 := by
  rw [fill, (stencil_accounts _).full.2 rfl]
  norm_num

theorem fill_nonneg (m : CornerMask) : 0 ≤ m.fill :=
  div_nonneg (Int.cast_nonneg m.stencil_accounts.range.1) (by norm_num)

theorem fill_pos {m : CornerMask} (h : m ≠ 0) : 0 < m.fill := by
  refine m.fill_nonneg.lt_of_ne' fun hzero => h (m.stencil_accounts.empty.1 ?_)
  rw [fill, div_eq_zero_iff] at hzero
  exact_mod_cast hzero.resolve_right (by norm_num)

theorem fill_lt_one {m : CornerMask} (h : m ≠ .allOnes 8) : m.fill < 1 := by
  have hlt : m.stencil.parts m < 48 := m.stencil_accounts.range.2.lt_of_ne fun hfull =>
    h (m.stencil_accounts.full.1 hfull)
  rw [fill, div_lt_one (by norm_num)]
  exact_mod_cast hlt

end CornerMask

end Isomesh
