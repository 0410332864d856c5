import Mathlib
import Isomesh.VertexKey

/-!
# Exact scalars

The elements of an ordered field as scalars: arithmetic does not round, every number is finite, and
the identity of a number is the number itself. Only the square root is left open, since a field need
not have one. `ExactRoot` asks for an exact one, which the reals have.

Keys are listed as the bit patterns of binary floating point would be, the numbers that are not
negative before the others and each by size.

* `Exact.key_inj`: points with the same key are equal.
* `Exact.rem_eq_of_lt`: the remainder of a number that is some multiples past a small one.
* `Vec3.norm_mul_norm`: lengths, where roots are exact.
-/

set_option autoImplicit false

namespace Isomesh

/-- A square root on a type of numbers. -/
class SquareRoot (K : Type) where
  root : K → K

/-- Exact on the squares of rationals. -/
instance : SquareRoot ℚ := ⟨Rat.sqrt⟩

/-- Whether the root of every number that is not negative is exact. -/
class ExactRoot (K : Type) [Field K] [LinearOrder K] [SquareRoot K] : Prop where
  root_nonneg : ∀ x : K, 0 ≤ x → 0 ≤ SquareRoot.root x
  root_mul_root : ∀ x : K, 0 ≤ x → SquareRoot.root x * SquareRoot.root x = x

noncomputable instance : SquareRoot ℝ := ⟨Real.sqrt⟩

instance : ExactRoot ℝ := ⟨fun x _ => x.sqrt_nonneg, fun _ => Real.mul_self_sqrt⟩

namespace Exact

variable {K : Type} [Field K] [LinearOrder K]

/-- The order in which keys are listed. -/
abbrev keyOrd : Ord K where
  compare := compareLex (compareOn fun x => decide (x < 0)) (compareOn fun x => |x|)

theorem keyOrd_trans : @Std.TransOrd K keyOrd :=
  inferInstanceAs (Std.TransCmp (compareLex (compareOn fun x : K => decide (x < 0))
    (compareOn fun x => |x|)))

variable [IsStrictOrderedRing K]

theorem keyOrd_lawful : @Std.LawfulEqOrd K keyOrd :=
  letI : Ord K := keyOrd
  letI : Std.TransOrd K := keyOrd_trans
  { eq_of_compare := by
      intro a b h
      obtain ⟨hsign, hsize⟩ := compareLex_eq_eq.mp h
      have hsign : decide (a < 0) = decide (b < 0) := Std.LawfulEqOrd.eq_of_compare hsign
      have hsize : |a| = |b| := compare_eq_iff_eq.1 hsize
      have hiff : a < 0 ↔ b < 0 := by simpa using hsign
      by_cases ha : a < 0
      · rw [abs_of_neg ha, abs_of_neg (hiff.1 ha)] at hsize
        exact neg_injective hsize
      · rw [abs_of_nonneg (not_lt.1 ha), abs_of_nonneg (not_lt.1 fun hb => ha (hiff.2 hb))] at hsize
        exact hsize }

variable [FloorRing K]

/-- The nearest whole number, a half away from zero. -/
def round (x : K) : Int := if 0 ≤ x then ⌊x + 1 / 2⌋ else ⌈x - 1 / 2⌉

/-- The remainder in `[0, |d|)`. -/
def rem (x d : K) : K := x - |d| * ⌊x / |d|⌋

/-- The remainder of a number that is some multiples past a small one. -/
theorem rem_eq_of_lt {d r : K} (n : ℕ) (hr : 0 ≤ r) (hlt : r < d) : rem (n * d + r) d = r := by
  have hd : 0 < d := lt_of_le_of_lt hr hlt
  have hfloor : ⌊(n * d + r) / d⌋ = (n : ℤ) := by
    rw [Int.floor_eq_iff, le_div_iff₀ hd, div_lt_iff₀ hd]
    push_cast
    constructor <;> linarith
  rw [rem, abs_of_pos hd, hfloor]
  push_cast
  ring

variable [SquareRoot K]

instance scalar : Scalar K where
  decLT := inferInstance
  decLE := inferInstance
  sqrt := SquareRoot.root
  floorNat x := ⌊x⌋₊
  roundInt := round
  rem := rem
  totalCmp := compare
  totalTrans := inferInstance
  Key := K
  key := id
  keyOrd := keyOrd
  keyTrans := keyOrd_trans
  keyEq := keyOrd_lawful

theorem isZero_iff {x : K} : Scalar.isZero x = true ↔ x = 0 := by
  rw [Scalar.isZero, Bool.and_eq_true, decide_eq_true_eq, decide_eq_true_eq]
  exact le_antisymm_iff.symm

theorem isFinite_eq_true (x : K) : Scalar.isFinite x = true := isZero_iff.2 (sub_self x)

theorem lesser_eq_min (a b : K) : Scalar.lesser a b = min a b := (min_def a b).symm

theorem greater_eq_max (a b : K) : Scalar.greater a b = max a b := by
  rw [max_comm, max_def]
  rfl

/-- **The identity of a point is the point itself.** -/
theorem key_inj {p q : Vec3 K} : p.key = q.key ↔ p = q := by
  constructor
  · intro h
    cases p
    cases q
    simp only [Vec3.key, VertexKey.mk.injEq] at h
    obtain ⟨hx, hy, hz⟩ := h
    exact congr (congr (congrArg Vec3.mk hx) hy) hz
  · exact fun h => h ▸ rfl

theorem abs_eq_abs (x : K) : Scalar.abs x = |x| := by
  rw [Scalar.abs]
  split_ifs with h
  · exact (abs_of_neg h).symm
  · exact (abs_of_nonneg (not_lt.1 h)).symm

end Exact

/-! ## Lengths -/

namespace Vec3

variable {K : Type} [Field K] [LinearOrder K] [IsStrictOrderedRing K] [FloorRing K] [SquareRoot K]

theorem normSq_nonneg (v : Vec3 K) : 0 ≤ v.normSq :=
  add_nonneg (add_nonneg (mul_self_nonneg v.x) (mul_self_nonneg v.y)) (mul_self_nonneg v.z)

theorem normSq_scale (v : Vec3 K) (s : K) : (v.scale s).normSq = v.normSq * (s * s) := by
  simp only [normSq, dot, scale]
  ring

theorem eq_zero_of_normSq_eq_zero {v : Vec3 K} (h : v.normSq = 0) : v.x = 0 ∧ v.y = 0 ∧ v.z = 0 := by
  have hsq : v.x * v.x + v.y * v.y + v.z * v.z = 0 := h
  have hx := mul_self_nonneg v.x
  have hy := mul_self_nonneg v.y
  have hz := mul_self_nonneg v.z
  exact ⟨mul_self_eq_zero.1 (by linarith), mul_self_eq_zero.1 (by linarith),
    mul_self_eq_zero.1 (by linarith)⟩

theorem eq_of_normSq_sub_eq_zero {u v : Vec3 K} (h : (u - v).normSq = 0) : u = v := by
  obtain ⟨hx, hy, hz⟩ := eq_zero_of_normSq_eq_zero h
  refine ext_get fun axis => sub_eq_zero.1 ?_
  cases axis
  · exact hx
  · exact hy
  · exact hz

variable [ExactRoot K]

theorem norm_nonneg (v : Vec3 K) : 0 ≤ v.norm := ExactRoot.root_nonneg _ v.normSq_nonneg

theorem norm_mul_norm (v : Vec3 K) : v.norm * v.norm = v.normSq :=
  ExactRoot.root_mul_root _ v.normSq_nonneg

theorem norm_scale (v : Vec3 K) {s : K} (hs : 0 ≤ s) : (v.scale s).norm = v.norm * s := by
  refine (mul_self_inj (norm_nonneg _) (mul_nonneg v.norm_nonneg hs)).1 ?_
  rw [norm_mul_norm, normSq_scale, mul_mul_mul_comm, norm_mul_norm]

end Vec3

end Isomesh
