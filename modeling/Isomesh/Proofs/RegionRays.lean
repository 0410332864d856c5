import Mathlib

/-!
# Rays through a region

A region with finitely many sides is given by one quantity for each, which is not negative on the near
side and zero on the side itself. Along a ray every quantity changes at a constant rate. A ray that
starts in the region leaves it through one side. A ray that starts outside misses it, or enters it
through one side and leaves it through another. Here a ray does not touch two sides at one place.

* `Motion`: quantities along a ray.
* `Motion.exists_exit`, `Motion.exists_entry`: the two ends of the part in the region.
* `Motion.odd_card_meets_iff`: the parity of the number of sides that are met.
-/

set_option autoImplicit false

namespace Isomesh

/-- Quantities that change at constant rates. -/
structure Motion (ι K : Type) where
  start : ι → K
  rate : ι → K

namespace Motion

section Values

variable {ι K : Type} [Field K]

/-- A quantity at some time. -/
def value (m : Motion ι K) (s : K) (i : ι) : K := m.start i + m.rate i * s

@[simp] theorem value_zero (m : Motion ι K) (i : ι) : m.value 0 i = m.start i := by
  rw [value, mul_zero, add_zero]

theorem value_sub_value (m : Motion ι K) (s r : K) (i : ι) :
    m.value r i - m.value s i = m.rate i * (r - s) := by
  simp only [value]
  ring

/-- The same quantities back from some time. -/
def reverse (m : Motion ι K) (s : K) : Motion ι K := ⟨m.value s, fun i => -m.rate i⟩

theorem value_reverse (m : Motion ι K) (s r : K) (i : ι) :
    (m.reverse s).value r i = m.value (s - r) i := by
  simp only [value, reverse]
  ring

end Values

variable {ι K : Type} [Field K] [LinearOrder K] [IsStrictOrderedRing K] {m : Motion ι K}

/-- Whether no quantity is negative. -/
def Within (m : Motion ι K) (s : K) : Prop := ∀ i, 0 ≤ m.value s i

/-- Whether a quantity becomes zero while no other is negative. -/
def Meets (m : Motion ι K) (i : ι) : Prop := ∃ s, 0 ≤ s ∧ m.value s i = 0 ∧ m.Within s

/-- Whether no two quantities become zero at once while the others are not negative. -/
def Clear (m : Motion ι K) : Prop :=
  ∀ s, 0 ≤ s → m.Within s → ∀ i j, m.value s i = 0 → m.value s j = 0 → i = j

/-! ## Ways out and in -/

section Ends

variable [Finite ι] {s : K}

/-- **The way out.** A quantity that falls becomes zero, and the first to do so before any is negative. -/
theorem exists_exit (hfall : ∃ i, m.rate i < 0) (hs : m.Within s) :
    ∃ r i, s ≤ r ∧ m.rate i < 0 ∧ m.value r i = 0 ∧ m.Within r := by
  obtain ⟨i, hi, hmin⟩ := Set.exists_min_image {i | m.rate i < 0} (fun i => -m.start i / m.rate i)
    (Set.toFinite _) hfall
  have hzero {j : ι} (hj : m.rate j < 0) : m.value (-m.start j / m.rate j) j = 0 := by
    rw [value, mul_div_cancel₀ _ hj.ne]
    exact add_neg_cancel _
  have hlater {j : ι} (hj : m.rate j < 0) {x : K} (hx : 0 ≤ m.value x j) :
      x ≤ -m.start j / m.rate j := by
    have hdiff := m.value_sub_value x (-m.start j / m.rate j) j
    rw [hzero hj] at hdiff
    exact sub_nonneg.1 (nonneg_of_mul_nonpos_right (by linarith) hj)
  refine ⟨-m.start i / m.rate i, i, hlater hi (hs i), hi, hzero hi, fun j => ?_⟩
  have hsi := hlater hi (hs i)
  rcases lt_or_ge (m.rate j) 0 with hj | hj
  · have hdiff := m.value_sub_value (-m.start j / m.rate j) (-m.start i / m.rate i) j
    rw [hzero hj, sub_zero] at hdiff
    rw [hdiff]
    exact mul_nonneg_of_nonpos_of_nonpos hj.le (sub_nonpos.2 (hmin j hj))
  · have hdiff := m.value_sub_value s (-m.start i / m.rate i) j
    have hgrowth := mul_nonneg hj (sub_nonneg.2 hsi)
    linarith [hs j]

/-- **The way in** is the way out of the motion back. -/
theorem exists_entry (hout : ∃ i, m.start i < 0) (hs0 : 0 ≤ s) (hs : m.Within s) :
    ∃ r i, 0 ≤ r ∧ 0 < m.rate i ∧ m.value r i = 0 ∧ m.Within r := by
  obtain ⟨k, hk⟩ := hout
  have hrise : 0 < m.rate k := by
    have hdiff := m.value_sub_value 0 s k
    rw [value_zero, sub_zero] at hdiff
    refine pos_of_mul_pos_left (b := s) ?_ hs0
    linarith [hs k]
  have hback : (m.reverse s).Within 0 := fun i => by
    rw [value_reverse, sub_zero]
    exact hs i
  obtain ⟨r, i, -, hi, hzero, hr⟩ := exists_exit (m := m.reverse s) ⟨k, neg_neg_of_pos hrise⟩ hback
  rw [value_reverse] at hzero
  have hwithin : m.Within (s - r) := fun j => by
    rw [← value_reverse]
    exact hr j
  refine ⟨s - r, i, ?_, neg_neg_iff_pos.1 hi, hzero, hwithin⟩
  have hdiff := m.value_sub_value 0 (s - r) k
  rw [value_zero, sub_zero] at hdiff
  exact le_of_lt (pos_of_mul_pos_right (by linarith [hwithin k]) hrise.le)

end Ends

/-! ## Sides that are met -/

/-- Of the sides to which a ray comes from the same side it meets one at most. -/
theorem Meets.eq_of_rate (hclear : m.Clear) {i j : ι} (hi : m.Meets i) (hj : m.Meets j)
    (h : 0 < m.rate i * m.rate j) : i = j := by
  obtain ⟨s, hs, hsi, hwithin⟩ := hi
  obtain ⟨r, -, hrj, hwithin'⟩ := hj
  have hdi := m.value_sub_value s r i
  have hdj := m.value_sub_value s r j
  have hi0 : 0 ≤ m.rate i * (r - s) := by linarith [hwithin' i]
  have hj0 : m.rate j * (r - s) ≤ 0 := by linarith [hwithin j]
  have hsr : s = r := by
    rcases pos_and_pos_or_neg_and_neg_of_mul_pos h with ⟨hpos, hpos'⟩ | ⟨hneg, hneg'⟩
    · exact le_antisymm (sub_nonneg.1 (nonneg_of_mul_nonneg_right hi0 hpos))
        (sub_nonpos.1 (nonpos_of_mul_nonpos_right hj0 hpos'))
    · exact le_antisymm (sub_nonneg.1 (nonneg_of_mul_nonpos_right hj0 hneg'))
        (sub_nonpos.1 (nonpos_of_mul_nonneg_right hi0 hneg))
  exact hclear s hs hwithin i j hsi (hsr ▸ hrj)

variable [Finite ι]

/-- A ray does not run along a side, since it would come to another one. -/
theorem Meets.rate_ne_zero (hfall : ∃ i, m.rate i < 0) (hclear : m.Clear) {i : ι} (hi : m.Meets i) :
    m.rate i ≠ 0 := by
  intro hzero
  obtain ⟨s, hs, hsi, hwithin⟩ := hi
  obtain ⟨r, j, hsr, hj, hrj, hwithin'⟩ := exists_exit hfall hwithin
  have hri : m.value r i = 0 := by
    have hdiff := m.value_sub_value s r i
    rw [hzero, zero_mul, hsi, sub_zero] at hdiff
    exact hdiff
  have hij := hclear r (hs.trans hsr) hwithin' i j hri hrj
  rw [← hij, hzero] at hj
  exact lt_irrefl 0 hj

/-- A ray that starts inside meets the side where it leaves. -/
theorem exists_meets_eq_singleton (hfall : ∃ i, m.rate i < 0) (hclear : m.Clear)
    (hin : ∀ i, 0 < m.start i) : ∃ i, {i | m.Meets i} = {i} := by
  obtain ⟨r, i, hr, hi, hzero, hwithin⟩ :=
    exists_exit hfall (s := 0) fun i => (m.value_zero i).symm ▸ (hin i).le
  refine ⟨i, Set.ext fun j => ⟨fun hj => ?_, fun hj => hj ▸ ⟨r, hr, hzero, hwithin⟩⟩⟩
  rcases lt_or_gt_of_ne (hj.rate_ne_zero hfall hclear) with hneg | hpos
  · exact hj.eq_of_rate hclear ⟨r, hr, hzero, hwithin⟩ (mul_pos_of_neg_of_neg hneg hi)
  · -- a quantity that is positive and rises does not become zero
    obtain ⟨s, hs, hsj, -⟩ := hj
    rw [value] at hsj
    linarith [hin j, mul_nonneg hpos.le hs]

/-- A ray that starts outside and comes into the region meets the sides where it enters and leaves. -/
theorem exists_meets_eq_pair (hfall : ∃ i, m.rate i < 0) (hclear : m.Clear)
    (hout : ∃ i, m.start i < 0) {s : K} (hs : 0 ≤ s) (hwithin : m.Within s) :
    ∃ i j, i ≠ j ∧ {i | m.Meets i} = {i, j} := by
  obtain ⟨r, i, hsr, hi, hri, hr⟩ := exists_exit hfall hwithin
  obtain ⟨q, j, hq0, hj, hqj, hq⟩ := exists_entry hout hs hwithin
  have hi' : m.Meets i := ⟨r, hs.trans hsr, hri, hr⟩
  have hj' : m.Meets j := ⟨q, hq0, hqj, hq⟩
  refine ⟨i, j, fun heq => lt_asymm hi (heq ▸ hj), Set.ext fun k => ⟨fun hk => ?_, ?_⟩⟩
  · rcases lt_or_gt_of_ne (hk.rate_ne_zero hfall hclear) with hneg | hpos
    · exact .inl (hk.eq_of_rate hclear hi' (mul_pos_of_neg_of_neg hneg hi))
    · exact .inr (hk.eq_of_rate hclear hj' (mul_pos hpos hj))
  · rintro (rfl | rfl)
    · exact hi'
    · exact hj'

/-- **A ray meets an odd number of sides just when it starts inside.** -/
theorem odd_ncard_meets_iff (hfall : ∃ i, m.rate i < 0) (hclear : m.Clear)
    (hoff : m.Within 0 → ∀ i, m.start i ≠ 0) :
    Odd {i | m.Meets i}.ncard ↔ ∀ i, 0 < m.start i := by
  by_cases hin : ∀ i, 0 < m.start i
  · refine iff_of_true ?_ hin
    obtain ⟨i, honly⟩ := exists_meets_eq_singleton hfall hclear hin
    rw [honly, Set.ncard_singleton]
    exact odd_one
  · refine iff_of_false (Nat.not_odd_iff_even.2 ?_) hin
    by_cases hmiss : ∃ s, 0 ≤ s ∧ m.Within s
    · obtain ⟨s, hs, hwithin⟩ := hmiss
      have hout : ∃ i, m.start i < 0 := by
        by_contra hnone
        push Not at hnone
        refine hin fun i => (hnone i).lt_of_ne' (hoff (fun j => ?_) i)
        exact (m.value_zero j).symm ▸ hnone j
      obtain ⟨i, j, hne, hboth⟩ := exists_meets_eq_pair hfall hclear hout hs hwithin
      rw [hboth, Set.ncard_pair hne]
      exact even_two
    · have hnone : {i | m.Meets i} = ∅ :=
        Set.eq_empty_of_forall_notMem fun _ ⟨s, hs, _, hwithin⟩ => hmiss ⟨s, hs, hwithin⟩
      rw [hnone, Set.ncard_empty]
      exact .zero

end Motion

end Isomesh
