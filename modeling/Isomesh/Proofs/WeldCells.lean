import Mathlib
import Isomesh.Proofs.Exact
import Isomesh.Proofs.WeldClusters

/-!
# Cells and distances

A vertex takes up two cells along each axis, from the one its coordinate rounds to. Two vertices have a
cell in common just when these numbers differ by one at most along every axis. Rounding moves a number by
a half at most, whichever way a half goes, so vertices closer than the welding distance have a cell in
common and vertices with one in common are no further apart than twice that distance.

* `linked_weldCells_iff`: vertices with a cell in common.
* `linked_of_abs_sub_lt`: near vertices.
* `abs_sub_le_of_linked`: linked vertices.
-/

set_option autoImplicit false

namespace Isomesh

/-! ## Rounding -/

namespace Exact

variable {K : Type} [Field K] [LinearOrder K] [IsStrictOrderedRing K] [FloorRing K]

/-- A number is rounded by a half at most. -/
theorem abs_round_sub_le (x : K) : |(round x : K) - x| ≤ 1 / 2 := by
  rw [abs_le, round]
  split
  · have hle := Int.floor_le (x + 1 / 2)
    have hlt := Int.lt_floor_add_one (x + 1 / 2)
    constructor <;> linarith
  · have hle := Int.le_ceil (x - 1 / 2)
    have hlt := Int.ceil_lt_add_one (x - 1 / 2)
    constructor <;> linarith

/-- Numbers closer than one round to neighbours. -/
theorem abs_round_sub_round_le {x y : K} (h : |x - y| < 1) : |round x - round y| ≤ 1 := by
  have hx := abs_le.1 (abs_round_sub_le x)
  have hy := abs_le.1 (abs_round_sub_le y)
  have hxy := abs_lt.1 h
  have hlt : |((round x - round y : ℤ) : K)| < (2 : ℤ) := by
    push_cast
    rw [abs_lt]
    constructor <;> linarith
  have hlt : |round x - round y| < 2 := by exact_mod_cast hlt
  omega

/-- Numbers that round to neighbours are no more than two apart. -/
theorem abs_sub_le_of_abs_round_sub_round_le {x y : K} (h : |round x - round y| ≤ 1) :
    |x - y| ≤ 2 := by
  have hx := abs_le.1 (abs_round_sub_le x)
  have hy := abs_le.1 (abs_round_sub_le y)
  have hxy : |((round x - round y : ℤ) : K)| ≤ (1 : ℤ) := by exact_mod_cast h
  push_cast at hxy
  rw [abs_le] at hxy ⊢
  constructor <;> linarith

end Exact

/-! ## Common cells -/

theorem mem_weldCells {K : Type} [Scalar K] {epsilon : K} {p : Vec3 K} {cell : WeldCell} :
    cell ∈ weldCells epsilon p ↔ ∃ dz ∈ [0, 1], ∃ dy ∈ [0, 1], ∃ dx ∈ [0, 1],
      (Scalar.roundInt (p.x / epsilon) + dx, Scalar.roundInt (p.y / epsilon) + dy,
        Scalar.roundInt (p.z / epsilon) + dz) = cell := by
  simp only [weldCells, List.mem_flatMap, List.mem_map]

/-- Two pairs of successive numbers meet when they begin at neighbours. -/
theorem exists_common_iff {i j : ℤ} :
    (∃ d ∈ [0, 1], ∃ e ∈ [0, 1], i + d = j + e) ↔ |i - j| ≤ 1 := by
  simp only [List.mem_cons, List.not_mem_nil, or_false, exists_eq_or_imp, exists_eq_left, abs_le]
  omega

theorem linked_weldCells_iff {K : Type} [Scalar K] {epsilon : K} {u v : Vec3 K} :
    Linked (weldCells epsilon) u v ↔ ∀ axis, |Scalar.roundInt (u.get axis / epsilon) -
      Scalar.roundInt (v.get axis / epsilon)| ≤ 1 := by
  simp only [← exists_common_iff]
  constructor
  · rintro ⟨cell, hu, hv⟩ axis
    obtain ⟨uz, huz, uy, huy, ux, hux, rfl⟩ := mem_weldCells.1 hu
    obtain ⟨vz, hvz, vy, hvy, vx, hvx, heq⟩ := mem_weldCells.1 hv
    simp only [Prod.mk.injEq] at heq
    obtain ⟨hx, hy, hz⟩ := heq
    cases axis with
    | x => exact ⟨ux, hux, vx, hvx, hx.symm⟩
    | y => exact ⟨uy, huy, vy, hvy, hy.symm⟩
    | z => exact ⟨uz, huz, vz, hvz, hz.symm⟩
  · intro h
    obtain ⟨ux, hux, vx, hvx, hx⟩ := h .x
    obtain ⟨uy, huy, vy, hvy, hy⟩ := h .y
    obtain ⟨uz, huz, vz, hvz, hz⟩ := h .z
    refine ⟨_, mem_weldCells.2 ⟨uz, huz, uy, huy, ux, hux, rfl⟩,
      mem_weldCells.2 ⟨vz, hvz, vy, hvy, vx, hvx, ?_⟩⟩
    exact congr (congrArg Prod.mk hx.symm) (congr (congrArg Prod.mk hy.symm) hz.symm)

/-! ## Distances -/

section Distances

variable {K : Type} [Field K] [LinearOrder K] [IsStrictOrderedRing K] [FloorRing K] [SquareRoot K]
  {epsilon : K} {u v : Vec3 K}

theorem linked_of_abs_sub_lt (hpos : 0 < epsilon)
    (h : ∀ axis, |u.get axis - v.get axis| < epsilon) : Linked (weldCells epsilon) u v := by
  refine linked_weldCells_iff.2 fun axis => Exact.abs_round_sub_round_le ?_
  rw [← sub_div, abs_div, abs_of_pos hpos, div_lt_one hpos]
  exact h axis

theorem abs_sub_le_of_linked (hpos : 0 < epsilon) (h : Linked (weldCells epsilon) u v) (axis : Axis) :
    |u.get axis - v.get axis| ≤ 2 * epsilon := by
  have hround := linked_weldCells_iff.1 h axis
  have hle := Exact.abs_sub_le_of_abs_round_sub_round_le hround
  rwa [← sub_div, abs_div, abs_of_pos hpos, div_le_iff₀ hpos] at hle

end Distances

end Isomesh
