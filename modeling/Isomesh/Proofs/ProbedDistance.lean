import Mathlib
import Isomesh.Distance
import Isomesh.Proofs.BisectedRange

/-!
# How accurate a probed distance is

A distance is probed with balls that begin to touch the surface beyond some radius. The search for a
bracket ends at two radii of which one is twice the other. They enclose the distance unless the steps are
used up first, and then the bracket is the last one in reach, below the distance or above it. Bisection
leaves a share of the bracket that is as small relative to the distance as it is to the bracket.

* `BeginsBeyond`: what the answers of the probes are.
* `changeOfTouch_eq`: the phase in which the radius is halved or doubled.
* `bracketTouch_eq`: the bracket that it ends with.
* `Collider.probedDist_accurate`: the main result.
-/

set_option autoImplicit false

namespace Isomesh

variable {K : Type} [Field K] [LinearOrder K] [IsStrictOrderedRing K] [FloorRing K] [SquareRoot K]

/-- Whether balls touch just when their radius is beyond `d`. -/
def BeginsBeyond (touches : K → Bool) (d : K) : Prop := ∀ r, 0 < r → (touches r = true ↔ d < r)

variable {touches : K → Bool} {d : K}

theorem BeginsBeyond.eq_false_iff (h : BeginsBeyond touches d) {r : K} (hr : 0 < r) :
    touches r = false ↔ r ≤ d := by
  rw [← Bool.not_eq_true, h r hr, not_lt]

/-! ## The search for a bracket -/

/-- What a step of the search multiplies the radius with. -/
def searchRate {K : Type} [Scalar K] (initial : Bool) : K := if initial then 0.5 else 2.0

theorem searchRate_true : (searchRate true : K) = 1 / 2 := by
  rw [searchRate, if_pos rfl]
  norm_num

theorem searchRate_false : (searchRate false : K) = 2 := by
  rw [searchRate, if_neg Bool.false_ne_true]
  norm_num

theorem further_eq (initial : Bool) (r : K) :
    (if initial then r / 2.0 else r * 2.0) = r * searchRate initial := by
  cases initial with
  | false =>
    rw [searchRate_false, if_neg Bool.false_ne_true]
    norm_num
  | true =>
    rw [searchRate_true, if_pos rfl, ← div_eq_mul_one_div]
    norm_num

/-- **The search multiplies the radius until the answer changes**, or up to its last step. -/
theorem changeOfTouch_eq (initial : Bool) (steps : Nat) (last : K) {next : K}
    (hnext : touches next = initial) :
    ∃ k ≤ steps, changeOfTouch touches initial (steps + 1) last next =
        (next * searchRate initial ^ k, next * searchRate initial ^ (k + 1)) ∧
      touches (next * searchRate initial ^ k) = initial ∧
      (k = steps ∨ touches (next * searchRate initial ^ (k + 1)) ≠ initial) := by
  induction steps generalizing last next with
  | zero =>
    refine ⟨0, le_rfl, ?_, by simpa using hnext, .inl rfl⟩
    simp only [changeOfTouch, further_eq, ite_self, pow_zero, mul_one, zero_add, pow_one]
  | succ steps ih =>
    rw [changeOfTouch, further_eq]
    split_ifs with hsame
    · obtain ⟨k, hk, heq, hbefore, hafter⟩ := ih next hsame
      simp only [mul_assoc, ← pow_succ'] at heq hbefore hafter
      exact ⟨k + 1, Nat.succ_le_succ hk, heq, hbefore, hafter.imp_left (congrArg Nat.succ)⟩
    · refine ⟨0, Nat.zero_le _, ?_, by simpa using hnext, .inr ?_⟩
      · simp
      · simpa using hsame

/-- **The bracket of a search.** Its upper end is twice the lower one. It encloses the distance, unless
it is the lowest or the highest one in reach of the steps. -/
theorem bracketTouch_eq (h : BeginsBeyond touches d) {n : Nat} (hn : 1 ≤ n) :
    ∃ lo, bracketTouch touches n = (lo, 2 * lo) ∧ (1 / 2) ^ n ≤ lo ∧ 2 * lo ≤ 2 ^ n ∧
      (lo ≤ d ∨ lo = (1 / 2) ^ n) ∧ (d < 2 * lo ∨ 2 * lo = 2 ^ n) := by
  obtain ⟨steps, rfl⟩ := Nat.exists_eq_add_of_le' hn
  have hone : ((1 : K) / 2) ≤ 1 := by norm_num
  have htwo : (1 : K) ≤ 2 := by norm_num
  cases hinitial : touches 1 with
  | true =>
    obtain ⟨k, hk, heq, hbefore, hafter⟩ := changeOfTouch_eq true steps 1 hinitial
    simp only [searchRate_true, one_mul] at heq hbefore hafter
    have hpos : 0 < ((1 : K) / 2) ^ (k + 1) := by positivity
    have hdouble : 2 * ((1 : K) / 2) ^ (k + 1) = (1 / 2) ^ k := by
      rw [pow_succ]
      ring
    refine ⟨(1 / 2) ^ (k + 1), ?_, ?_, ?_, ?_, .inl ?_⟩
    · rw [bracketTouch, hinitial, heq, hdouble]
      simp only [if_neg (show ¬((1 : K) / 2) ^ k < (1 / 2) ^ (k + 1) by linarith)]
    · exact pow_le_pow_of_le_one (by norm_num) hone (Nat.succ_le_succ hk)
    · rw [hdouble]
      exact (pow_le_one₀ (by norm_num) hone).trans (one_le_pow₀ htwo)
    · rcases hafter with rfl | hafter
      · exact .inr rfl
      · exact .inl ((h.eq_false_iff hpos).1 (Bool.eq_false_of_not_eq_true hafter))
    · rw [hdouble]
      exact (h _ (by positivity)).1 hbefore
  | false =>
    obtain ⟨k, hk, heq, hbefore, hafter⟩ := changeOfTouch_eq false steps 1 hinitial
    simp only [searchRate_false, one_mul] at heq hbefore hafter
    have hpos : 0 < (2 : K) ^ k := by positivity
    have hdouble : 2 * (2 : K) ^ k = 2 ^ (k + 1) := (pow_succ' 2 k).symm
    refine ⟨2 ^ k, ?_, ?_, ?_, .inl ?_, ?_⟩
    · rw [bracketTouch, hinitial, heq, hdouble]
      simp only [if_pos (show (2 : K) ^ k < 2 ^ (k + 1) by linarith)]
    · exact (pow_le_one₀ (by norm_num) hone).trans (one_le_pow₀ htwo)
    · rw [hdouble]
      exact pow_le_pow_right₀ htwo (Nat.succ_le_succ hk)
    · exact (h.eq_false_iff hpos).1 hbefore
    · rcases hafter with rfl | hafter
      · exact .inr hdouble
      · rw [hdouble]
        exact .inl ((h _ (by positivity)).1 (Bool.eq_true_of_not_eq_false hafter))

/-! ## The bisection of a bracket -/

/-- A bisection in which all middles get the same answer ends next to one end. -/
theorem bisect_of_same {holds : K → Bool} {answer : Bool} (steps : Nat) {yes no : K} (hlt : no < yes)
    (hsame : ∀ r, no < r → r < yes → holds r = answer) :
    bisect holds steps yes no =
      if answer then no + (yes - no) / 2 ^ (steps + 1) else yes - (yes - no) / 2 ^ (steps + 1) := by
  induction steps generalizing yes no with
  | zero =>
    rw [bisect, halfway_eq]
    cases answer
    · simp only [Bool.false_eq_true, if_false]
      ring
    · simp only [if_true]
      ring
  | succ steps ih =>
    have hmid : no < halfway yes no ∧ halfway yes no < yes := by
      rw [halfway_eq]
      constructor <;> linarith
    rw [bisect, hsame _ hmid.1 hmid.2]
    cases answer
    · simp only [Bool.false_eq_true, if_false] at ih ⊢
      rw [ih hmid.2 fun r hr => hsame r (hmid.1.trans hr), halfway_eq, pow_succ _ (steps + 1)]
      field_simp
      ring
    · simp only [if_true] at ih ⊢
      rw [ih hmid.1 fun r hr hr' => hsame r hr (hr'.trans hmid.2), halfway_eq,
        pow_succ _ (steps + 1)]
      field_simp
      ring

/-- A bracket that encloses the distance leads to it, up to a share of the bracket. -/
theorem abs_bisect_sub_le (h : BeginsBeyond touches d) (steps : Nat) {lo hi : K} (hpos : 0 < lo)
    (hlo : lo ≤ d) (hhi : d < hi) :
    |bisect touches steps hi lo - d| ≤ (hi - lo) / 2 ^ (steps + 1) := by
  have hlt : lo < hi := hlo.trans_lt hhi
  have hyes : touches hi = true := (h hi (hpos.trans hlt)).2 hhi
  have hno : touches lo = false := (h.eq_false_iff hpos).2 hlo
  obtain ⟨s, hgap, hs, hc, hback, hon⟩ := bisect_brackets touches steps hyes hno
  have hshare : (lo - hi) * (1 / 2 ^ (steps + 1)) = -((hi - lo) / 2 ^ (steps + 1)) := by
    rw [mul_one_div, ← neg_sub hi lo, neg_div]
  rw [hshare] at hback hon
  -- both probes are at radii between the ends, so that their answers tell on which side `d` is
  have hlow : lo ≤ bisect touches steps hi lo + -((hi - lo) / 2 ^ (steps + 1)) := by
    rw [hc, ← hshare]
    nlinarith
  have hwidth : 0 < (hi - lo) / 2 ^ (steps + 1) := div_pos (sub_pos.2 hlt) (by positivity)
  have habove := (h _ (by linarith)).1 hback
  have hbelow := (h.eq_false_iff (hpos.trans_le hlow)).1 hon
  rw [abs_le]
  constructor <;> linarith

/-! ## Main result -/

namespace Collider

variable {surface : Collider K} {p : Vec3 K}

/-- Where a search ends, without the sign. -/
theorem exists_probed (h : BeginsBeyond (surface.touchesBall p) d) {n : Nat} (hn : 1 ≤ n) :
    ∃ r, 0 < r ∧
      surface.probedDist n p = (if (Solid.enclosedBy surface).contains p then r else -r) ∧
      ((1 / 2) ^ n ≤ d → d < 2 ^ n → |r - d| ≤ d / 2 ^ (n + 1)) ∧
      (d < (1 / 2) ^ n → r = (1 / 2) ^ n * (1 + (1 / 2) ^ (n + 1))) ∧
      (2 ^ n ≤ d → r = 2 ^ n - 2 ^ (n - 1) / 2 ^ (n + 1)) := by
  obtain ⟨lo, hbracket, hlowest, hhighest, hlo, hhi⟩ := bracketTouch_eq h hn
  have hpos : 0 < lo := (by positivity : (0 : K) < (1 / 2) ^ n).trans_le hlowest
  have hlt : lo < 2 * lo := by linarith
  have hwidth : 2 * lo - lo = lo := by ring
  refine ⟨bisect (surface.touchesBall p) n (2 * lo) lo, ?_, ?_, fun hd hd' => ?_, fun hd => ?_,
    fun hd => ?_⟩
  · have hmem := bisect_mem_Ioo (surface.touchesBall p) n (Set.right_mem_Icc.2 hlt.le)
      (Set.left_mem_Icc.2 hlt.le) hlt.ne'
    exact hpos.trans hmem.1
  · rw [probedDist, hbracket]
  · have hlo' : lo ≤ d := hlo.elim id fun heq => heq ▸ hd
    have hhi' : d < 2 * lo := hhi.elim id fun heq => heq ▸ hd'
    have hle := abs_bisect_sub_le h n hpos hlo' hhi'
    rw [hwidth] at hle
    exact hle.trans (div_le_div_of_nonneg_right hlo' (by positivity))
  · have heq : lo = (1 / 2) ^ n := hlo.resolve_left (not_le.2 (hd.trans_le hlowest))
    have hsame : ∀ r, lo < r → r < 2 * lo → surface.touchesBall p r = true := fun r hr _ =>
      (h r (hpos.trans hr)).2 (hd.trans_le hlowest |>.trans hr)
    rw [bisect_of_same n hlt hsame, if_pos rfl, hwidth, heq, one_div, inv_pow, inv_pow]
    ring
  · have heq : 2 * lo = 2 ^ n := hhi.resolve_left (not_lt.2 (hhighest.trans hd))
    have hsame : ∀ r, lo < r → r < 2 * lo → surface.touchesBall p r = false := fun r hr hr' =>
      (h.eq_false_iff (hpos.trans hr)).2 (hr'.le.trans (hhighest.trans hd))
    have hlo' : lo = 2 ^ (n - 1) := by
      rw [← Nat.sub_add_cancel hn, pow_succ'] at heq
      exact mul_left_cancel₀ two_ne_zero heq
    rw [bisect_of_same n hlt hsame, if_neg Bool.false_ne_true, hwidth, heq, hlo']

/-- **A probed distance is accurate to one part in `2 ^ (n + 1)`** where `n` steps reach it. A distance
below their reach is found to be a little more than the smallest radius, one beyond it a little less than
the largest. The sign is that of the side, and it is never lost. -/
theorem probedDist_accurate (h : BeginsBeyond (surface.touchesBall p) d) {n : Nat} (hn : 1 ≤ n) :
    ((1 / 2) ^ n ≤ d → d < 2 ^ n → |(|surface.probedDist n p| - d)| ≤ d / 2 ^ (n + 1)) ∧
    (d < (1 / 2) ^ n → |surface.probedDist n p| = (1 / 2) ^ n * (1 + (1 / 2) ^ (n + 1))) ∧
    (2 ^ n ≤ d → |surface.probedDist n p| = 2 ^ n - 2 ^ (n - 1) / 2 ^ (n + 1)) ∧
    (0 < surface.probedDist n p ↔ (Solid.enclosedBy surface).contains p = true) ∧
    (surface.probedDist n p < 0 ↔ (Solid.enclosedBy surface).contains p = false) ∧
    surface.probedDist n p ≠ 0 := by
  obtain ⟨r, hr, heq, hreached, hbelow, hbeyond⟩ := exists_probed h hn
  have habs : |surface.probedDist n p| = r := by
    rw [heq]
    split
    · exact abs_of_pos hr
    · rw [abs_neg, abs_of_pos hr]
  rw [habs]
  refine ⟨hreached, hbelow, hbeyond, ?_⟩
  rw [heq]
  cases (Solid.enclosedBy surface).contains p with
  | true => simp [hr, hr.le, hr.ne']
  | false => simp [hr, hr.le, hr.ne']

/-- The surface of a basin, level with the origin. Rays go up through it from below. -/
def waterLevel : Collider ℚ where
  bounds := ⟨⟨-9, -9, -9⟩, ⟨9, 9, 0⟩⟩
  crossings ray := if ray.origin.z * ray.direction.z < 0 then 1 else 0
  firstHit _ := none
  touchesBall center r := |center.z| < r

/-- A point under water, and one above it that is further away than three steps reach. -/
theorem probedDist_accurate_at_waterLevel :
    BeginsBeyond (waterLevel.touchesBall ⟨1, 2, -5 / 3⟩) (5 / 3) ∧
      |(|waterLevel.probedDist 3 ⟨1, 2, -5 / 3⟩| - 5 / 3)| ≤ 5 / 3 / 2 ^ 4 ∧
      0 < waterLevel.probedDist 3 ⟨1, 2, -5 / 3⟩ ∧
      BeginsBeyond (waterLevel.touchesBall ⟨1, 2, 20⟩) 20 ∧
      |waterLevel.probedDist 3 ⟨1, 2, 20⟩| = 2 ^ 3 - 2 ^ 2 / 2 ^ 4 ∧
      waterLevel.probedDist 3 ⟨1, 2, 20⟩ < 0 := by
  have hbelow : BeginsBeyond (waterLevel.touchesBall ⟨1, 2, -5 / 3⟩) (5 / 3) := fun r _ => by
    norm_num [waterLevel, abs_of_neg]
  have habove : BeginsBeyond (waterLevel.touchesBall ⟨1, 2, 20⟩) 20 := fun r _ => by
    norm_num [waterLevel]
  obtain ⟨hreached, -, -, hinside, -⟩ := probedDist_accurate hbelow (n := 3) (by norm_num)
  obtain ⟨-, -, hbeyond, -, houtside, -⟩ := probedDist_accurate habove (n := 3) (by norm_num)
  exact ⟨hbelow, hreached (by norm_num) (by norm_num), hinside.2 (by decide +kernel), habove,
    hbeyond (by norm_num), houtside.2 (by decide +kernel)⟩

end Collider

end Isomesh
