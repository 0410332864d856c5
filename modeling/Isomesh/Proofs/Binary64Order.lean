import Mathlib
import Isomesh.Binary64
import Isomesh.Proofs.OrderedScalars

/-!
# The order of doubles

Comparisons of doubles put all of them in one order but for the undefined one, which compares with
nothing, and both zeros stand at the same place. A difference of ordinary numbers is rounded and may
become infinite, but not undefined.

* `Binary64.rankOf`: where a double stands in the order.
* `Binary64.le_iff`, `Binary64.lt_iff`: comparisons compare ranks.
* `Binary64.isNaN_sub`: differences of ordinary numbers.
* `Binary64.ordered`: doubles are in order.
-/

set_option autoImplicit false

namespace Isomesh.Binary64

open Float.Model (UnpackedFloat Format)
open Float.Model.UnpackedFloat (Sign unpackExponent unpackMantissa)

/-! ## Ranks -/

/-- Where an unpacked double stands: first its class from the negative infinity to the positive one, then
the exponent and then the mantissa. An undefined number stands nowhere. -/
def rankOf : UnpackedFloat → Option (ℤ ×ₗ ℤ ×ₗ ℤ)
  | .notANumber => none
  | .infinity .negative => some (toLex (-2, toLex (0, 0)))
  | .finite .negative m e _ => some (toLex (-1, toLex (-e, -m)))
  | .zero _ => some (toLex (0, toLex (0, 0)))
  | .finite .positive m e _ => some (toLex (1, toLex (e, m)))
  | .infinity .positive => some (toLex (2, toLex (0, 0)))

theorem compare_positive (d e : ℤ) (m n : ℕ) :
    (compare d e).then (compare m n) =
      compare (toLex (1, toLex (d, m)) : ℤ ×ₗ ℤ ×ₗ ℤ) (toLex (1, toLex (e, n))) := by
  have hcast : compare (m : ℤ) n = compare m n := by
    rw [← cmp_eq_compare, ← cmp_eq_compare]
    exact Nat.strictMono_cast.cmp_map_eq m n
  simp [Prod.Lex.compare_def, compareLex, compareOn, hcast]

theorem compare_negative (d e : ℤ) (m n : ℕ) :
    ((compare d e).then (compare m n)).swap =
      compare (toLex (-1, toLex (-d, -m)) : ℤ ×ₗ ℤ ×ₗ ℤ) (toLex (-1, toLex (-e, -n))) := by
  have hneg (a b : ℤ) : compare (-a) (-b) = (compare a b).swap := by
    rw [← Std.OrientedCmp.eq_swap, ← cmp_eq_compare, ← cmp_eq_compare]
    exact StrictAnti.cmp_map_eq (fun _ _ => neg_lt_neg) a b
  rw [compare_positive]
  simp [Prod.Lex.compare_def, compareLex, compareOn, hneg, Ordering.swap_then]

/-- **Comparing unpacked doubles is comparing their ranks.** -/
theorem compare_eq (u v : UnpackedFloat) :
    u.compare v = (rankOf u).bind fun a => (rankOf v).map fun b => compare a b := by
  cases u with
  | notANumber => rfl
  | infinity s =>
    cases v with
    | notANumber => cases s <;> rfl
    | infinity t => cases s <;> cases t <;> rfl
    | zero t => cases s <;> rfl
    | finite t n e hn => cases s <;> cases t <;> rfl
  | zero s =>
    cases v with
    | notANumber => rfl
    | infinity t => cases t <;> rfl
    | zero t => rfl
    | finite t n e hn => cases t <;> rfl
  | finite s m d hm =>
    cases v with
    | notANumber => cases s <;> rfl
    | infinity t => cases s <;> cases t <;> rfl
    | zero t => cases s <;> rfl
    | finite t n e hn =>
      -- only two numbers of the same sign go by exponent and mantissa
      cases s <;> cases t
      · exact congrArg some (compare_negative d e m n)
      · rfl
      · rfl
      · exact congrArg some (compare_positive d e m n)

theorem le_iff {x y : Float} :
    x ≤ y ↔ ∃ a ∈ rankOf x.toModel.unpack, ∃ b ∈ rankOf y.toModel.unpack, a ≤ b := by
  have hle : x ≤ y ↔ (x.toModel.unpack.compare y.toModel.unpack).any (·.isLE) = true :=
    decide_eq_true_iff
  rw [hle, compare_eq]
  cases rankOf x.toModel.unpack <;> cases rankOf y.toModel.unpack <;>
    simp [Ordering.isLE_iff_ne_gt, compare_le_iff_le]

theorem lt_iff {x y : Float} :
    x < y ↔ ∃ a ∈ rankOf x.toModel.unpack, ∃ b ∈ rankOf y.toModel.unpack, a < b := by
  have hlt : x < y ↔ (x.toModel.unpack.compare y.toModel.unpack == some .lt) = true :=
    decide_eq_true_iff
  rw [hlt, compare_eq]
  cases rankOf x.toModel.unpack <;> cases rankOf y.toModel.unpack <;> simp [compare_lt_iff_lt]

theorem rankOf_isSome_iff {u : UnpackedFloat} : (∃ a, a ∈ rankOf u) ↔ u.isNaN = false := by
  cases u with
  | notANumber => simp [rankOf, UnpackedFloat.isNaN]
  | infinity s => cases s <;> simp [rankOf, UnpackedFloat.isNaN]
  | zero s => simp [rankOf, UnpackedFloat.isNaN]
  | finite s m e hm => cases s <;> simp [rankOf, UnpackedFloat.isNaN]

theorem defined_iff {x : Float} : Scalar.Defined x ↔ x.toModel.unpack.isNaN = false := by
  rw [← rankOf_isSome_iff]
  refine le_iff.trans ⟨fun ⟨a, ha, _⟩ => ⟨a, ha⟩, fun ⟨a, ha⟩ => ⟨a, ha, a, ha, le_rfl⟩⟩

/-! ## Differences -/

theorem isNaN_unpack {spec : Format} {b : BitVec spec.numBits}
    (h : unpackExponent b = -1#_ → unpackMantissa b = 0#_) :
    (UnpackedFloat.unpack spec b).isNaN = false := by
  unfold UnpackedFloat.unpack
  dsimp only
  split_ifs with hones hzero
  · rfl
  · exact absurd (h hones) hzero
  all_goals rfl

/-- **Packing makes no number undefined** that was not so before. -/
theorem isNaN_unpack_pack {spec : Format} {u : UnpackedFloat} (h : u.isNaN = false) :
    (UnpackedFloat.unpack spec (UnpackedFloat.pack spec u)).isNaN = false := by
  refine isNaN_unpack ?_
  have hones : (-1#_ : BitVec spec.exponentBits).toNat = 2 ^ spec.exponentBits - 1 := by
    rw [BitVec.neg_one_eq_allOnes, BitVec.toNat_allOnes]
  fun_cases UnpackedFloat.pack with
  | case1 => cases h
  | case2 s => exact fun _ => UnpackedFloat.unpackMantissa_packComponents
  | case3 s => exact fun _ => UnpackedFloat.unpackMantissa_packComponents
  | case4 s m e hm biased hinfinite => exact fun _ => UnpackedFloat.unpackMantissa_packComponents
  | case5 s m e hm bits biased hfits hnormal =>
    intro hexponent
    rw [UnpackedFloat.unpackExponent_packComponents, ← BitVec.toNat_inj, hones, BitVec.toNat_ofNat,
      Nat.mod_eq_of_lt (by omega)] at hexponent
    omega
  | case6 s m e hm bits biased hfits hsubnormal =>
    intro hexponent
    rw [UnpackedFloat.unpackExponent_packComponents, ← BitVec.toNat_inj, hones, BitVec.toNat_ofNat,
      Nat.zero_mod] at hexponent
    have hbits := Nat.one_lt_two_pow (Nat.pos_iff_ne_zero.1 spec.he)
    omega

theorem isNaN_round (spec : Format) (s : Sign) (m : ℕ) (e : ℤ) :
    (UnpackedFloat.round spec s m e).isNaN = false := by
  unfold UnpackedFloat.round UnpackedFloat.roundWithAccuracy
  dsimp only
  split_ifs <;> rfl

theorem isNaN_normalize (spec : Format) (m e : ℤ) (s : Sign) :
    (UnpackedFloat.normalize spec m e s).isNaN = false := by
  unfold UnpackedFloat.normalize
  split
  · exact isNaN_round ..
  · rfl
  · exact isNaN_round ..

/-- **The difference of two ordinary numbers is defined.** -/
theorem isNaN_sub (spec : Format) {u v : UnpackedFloat} (hu : u.isFinite = true)
    (hv : v.isFinite = true) : (UnpackedFloat.sub spec u v).isNaN = false := by
  cases u with
  | notANumber => cases hu
  | infinity s => cases hu
  | zero s =>
    cases v with
    | notANumber => cases hv
    | infinity t => cases hv
    | zero t => cases s <;> cases t <;> rfl
    | finite t n e hn => rfl
  | finite s m d hm =>
    cases v with
    | notANumber => cases hv
    | infinity t => cases hv
    | zero t => rfl
    | finite t n e hn => exact isNaN_normalize ..

/-- Subtracting a number from itself tells whether it is ordinary. -/
theorem isFinite_unpack {x : Float} (h : Scalar.isFinite x = true) :
    x.toModel.unpack.isFinite = true := by
  have hdefined : Scalar.Defined (x - x) := by
    obtain ⟨hle, -⟩ := Bool.and_eq_true_iff.1 h
    obtain ⟨a, ha, -⟩ := le_iff.1 (of_decide_eq_true hle)
    exact le_iff.2 ⟨a, ha, a, ha, le_rfl⟩
  have hdiff : (x - x).toModel.unpack = (Float.Model.pack (.sub .binary64 x.toModel.unpack
    x.toModel.unpack)).unpack := rfl
  rw [defined_iff, hdiff] at hdefined
  cases hunpack : x.toModel.unpack with
  | notANumber =>
    rw [hunpack] at hdefined
    cases hdefined
  | infinity s =>
    rw [hunpack] at hdefined
    cases s <;> cases hdefined
  | zero s => rfl
  | finite s m e hm => rfl

/-- **Doubles are in order,** all but the undefined one. -/
instance ordered : OrderedScalar Float where
  le_trans {x y z} hxy hyz := by
    obtain ⟨a, ha, b, hb, hab⟩ := le_iff.1 hxy
    obtain ⟨b', hb', c, hc, hbc⟩ := le_iff.1 hyz
    obtain rfl := Option.mem_unique hb hb'
    exact le_iff.2 ⟨a, ha, c, hc, hab.trans hbc⟩
  le_total {x y} hx hy := by
    obtain ⟨a, ha⟩ := rankOf_isSome_iff.2 (defined_iff.1 hx)
    obtain ⟨b, hb⟩ := rankOf_isSome_iff.2 (defined_iff.1 hy)
    exact (le_total a b).imp (fun h => le_iff.2 ⟨a, ha, b, hb, h⟩) fun h => le_iff.2 ⟨b, hb, a, ha, h⟩
  lt_iff {x y} := by
    rw [lt_iff, le_iff, le_iff]
    constructor
    · rintro ⟨a, ha, b, hb, hlt⟩
      refine ⟨⟨a, ha, b, hb, hlt.le⟩, fun ⟨b', hb', a', ha', hle⟩ => ?_⟩
      obtain rfl := Option.mem_unique ha ha'
      obtain rfl := Option.mem_unique hb hb'
      exact hlt.not_ge hle
    · rintro ⟨⟨a, ha, b, hb, -⟩, hnot⟩
      exact ⟨a, ha, b, hb, not_le.1 fun hle => hnot ⟨b, hb, a, ha, hle⟩⟩
  defined_of_isFinite {x} hx := by
    rw [defined_iff]
    have := isFinite_unpack hx
    cases hunpack : x.toModel.unpack <;> simp_all [UnpackedFloat.isFinite, UnpackedFloat.isNaN]
  defined_sub {x y} hx hy := by
    rw [defined_iff]
    exact isNaN_unpack_pack (isNaN_sub _ (isFinite_unpack hx) (isFinite_unpack hy))

end Isomesh.Binary64
