import Mathlib
import Isomesh.Bisection
import Isomesh.Proofs.Exact

/-!
# Bisection in exact arithmetic

The middle of a range is inside it, and each half is half as wide. So a bisection ends inside the range
that it began with and within the last width of a change of the property, whatever the property is.

* `bisect_mem_Ioo`: bisection stays between the ends of the range.
* `bisect_brackets`: it keeps an end where the property holds and one where it does not.
-/

set_option autoImplicit false

namespace Isomesh

variable {K : Type} [Field K] [LinearOrder K] [IsStrictOrderedRing K] [FloorRing K] [SquareRoot K]

/-! ## Staying inside -/

theorem halfway_eq (a b : K) : halfway a b = (a + b) / 2 := by
  rw [halfway]
  norm_num

theorem halfway_mem_Ioo {lo hi a b : K} (ha : a ∈ Set.Icc lo hi) (hb : b ∈ Set.Icc lo hi)
    (hne : a ≠ b) : halfway a b ∈ Set.Ioo lo hi := by
  obtain ⟨ha1, ha2⟩ := ha
  obtain ⟨hb1, hb2⟩ := hb
  rw [halfway_eq]
  rcases lt_or_gt_of_ne hne with hlt | hlt
  · constructor <;> linarith
  · constructor <;> linarith

theorem halfway_ne {a b : K} (hne : a ≠ b) : halfway a b ≠ a ∧ halfway a b ≠ b := by
  rw [halfway_eq]
  constructor
  · intro h
    exact hne (by linarith)
  · intro h
    exact hne (by linarith)

/-- Bisection stays between the ends of the range. -/
theorem bisect_mem_Ioo (holds : K → Bool) (steps : Nat) {lo hi yes no : K}
    (hyes : yes ∈ Set.Icc lo hi) (hno : no ∈ Set.Icc lo hi) (hne : yes ≠ no) :
    bisect holds steps yes no ∈ Set.Ioo lo hi := by
  induction steps generalizing yes no with
  | zero => exact halfway_mem_Ioo hyes hno hne
  | succ steps ih =>
    have hmid := Set.Ioo_subset_Icc_self (halfway_mem_Ioo hyes hno hne)
    obtain ⟨hmid_yes, hmid_no⟩ := halfway_ne hne
    rw [bisect]
    split
    · exact ih hmid hno hmid_no
    · exact ih hyes hmid hmid_yes.symm

theorem bisect_either_mem_Ioo (holds : K → Bool) (steps : Nat) {lo hi : K} (h : lo < hi)
    (lower : Bool) :
    (if lower then bisect holds steps lo hi else bisect holds steps hi lo) ∈ Set.Ioo lo hi := by
  cases lower
  · exact bisect_mem_Ioo holds steps (Set.right_mem_Icc.2 h.le) (Set.left_mem_Icc.2 h.le) h.ne'
  · exact bisect_mem_Ioo holds steps (Set.left_mem_Icc.2 h.le) (Set.right_mem_Icc.2 h.le) h.ne

/-! ## Brackets -/

/-- Whether `c` is so far between two ends that, gone back by a share of the range, the property holds and,
gone on by as much, it does not, neither of them beyond an end. -/
def BracketsAlong (holds : K → Bool) (gap yes no c : K) : Prop :=
  ∃ s, gap ≤ s ∧ s ≤ 1 - gap ∧ c = yes + (no - yes) * s ∧
    holds (c - (no - yes) * gap) = true ∧ holds (c + (no - yes) * gap) = false

/-- A bracket in one half of a range, from `shift` on, is a bracket in the range. -/
theorem BracketsAlong.widen {holds : K → Bool} {gap yes no yes' no' shift c : K}
    (h : BracketsAlong holds gap yes' no' c) (hshift : 0 ≤ shift ∧ shift ≤ 1 / 2)
    (hyes : yes' = yes + (no - yes) * shift) (hno : no' - yes' = (no - yes) / 2) :
    BracketsAlong holds (gap / 2) yes no c := by
  obtain ⟨s, hlo, hhi, hc, hin, hout⟩ := h
  obtain ⟨hshift, hshift'⟩ := hshift
  have hgap : (no' - yes') * gap = (no - yes) * (gap / 2) := by
    rw [hno]
    ring
  rw [hgap] at hin hout
  refine ⟨shift + s / 2, by linarith, by linarith, ?_, hin, hout⟩
  rw [hc, hno, hyes]
  ring

/-- **Bisection brackets a change of the property.** -/
theorem bisect_brackets (holds : K → Bool) (steps : Nat) {yes no : K} (hyes : holds yes = true)
    (hno : holds no = false) :
    BracketsAlong holds (1 / 2 ^ (steps + 1)) yes no (bisect holds steps yes no) := by
  induction steps generalizing yes no with
  | zero =>
    have hback : halfway yes no - (no - yes) * (1 / 2 ^ (0 + 1)) = yes := by
      rw [halfway_eq]
      ring
    have hon : halfway yes no + (no - yes) * (1 / 2 ^ (0 + 1)) = no := by
      rw [halfway_eq]
      ring
    refine ⟨1 / 2, by norm_num, by norm_num, ?_, ?_, ?_⟩
    · rw [bisect, halfway_eq]
      ring
    · rwa [bisect, hback]
    · rwa [bisect, hon]
  | succ steps ih =>
    rw [bisect, pow_succ, ← div_div]
    have hmid : halfway yes no = yes + (no - yes) * (1 / 2) := by
      rw [halfway_eq]
      ring
    split_ifs with hin
    · refine (ih hin hno).widen ⟨by norm_num, le_rfl⟩ hmid ?_
      rw [hmid]
      ring
    · refine (ih hyes (Bool.not_eq_true _ ▸ hin)).widen ⟨le_rfl, by norm_num⟩ (by ring) ?_
      rw [hmid]
      ring

end Isomesh
