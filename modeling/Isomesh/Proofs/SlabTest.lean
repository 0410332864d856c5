import Mathlib
import Isomesh.Proofs.TreeBounds

/-!
# What is left of a ray between the faces of a box

The test of a ray against a box goes through the axes and keeps the multiples of the direction at which
the ray is between the two faces. In exact arithmetic a step keeps exactly these, so the range that is
left holds every multiple at which the ray is in the box.

* `Span.Holds`: the multiples in a range.
* `Span.holds_clip`, `Bounds.holds_clipRay`: one step.
* `Bounds.meetsRay_of_contains`: a ray that has a point of the box passes the test.
* `Bounds.slab_test_exact`: no other ray does.
-/

set_option autoImplicit false

namespace Isomesh

variable {K : Type} [Field K] [LinearOrder K] [IsStrictOrderedRing K] [FloorRing K] [SquareRoot K]

theorem Ray.get_pointAt (ray : Ray K) (x : K) (axis : Axis) :
    (ray.pointAt x).get axis = ray.origin.get axis + ray.direction.get axis * x := by
  rw [pointAt, Vec3.get_add, Vec3.get_scale]

namespace Span

/-- Whether a multiple is in the range. -/
def Holds (s : Span K) (x : K) : Prop := (∀ l ∈ s.lo, l ≤ x) ∧ ∀ h ∈ s.hi, x ≤ h

theorem holds_full (x : K) : full.Holds x :=
  ⟨fun l hl => (Option.not_mem_none l hl).elim, fun h hh => (Option.not_mem_none h hh).elim⟩

theorem raise_le_iff {lo : Option K} {t x : K} :
    (∀ l ∈ raise lo t, l ≤ x) ↔ (∀ l ∈ lo, l ≤ x) ∧ t ≤ x := by
  cases lo with
  | none => simp [raise]
  | some l =>
    simp only [raise, le_refl, if_true]
    split_ifs with hlt
    · simp only [Option.mem_some_iff, forall_eq']
      exact ⟨fun h => ⟨hlt.le.trans h, h⟩, And.right⟩
    · simp only [Option.mem_some_iff, forall_eq']
      exact ⟨fun h => ⟨h, (not_lt.1 hlt).trans h⟩, And.left⟩

theorem le_lower_iff {hi : Option K} {t x : K} :
    (∀ h ∈ lower hi t, x ≤ h) ↔ (∀ h ∈ hi, x ≤ h) ∧ x ≤ t := by
  cases hi with
  | none => simp [lower]
  | some h =>
    simp only [lower, le_refl, if_true]
    split_ifs with hlt
    · simp only [Option.mem_some_iff, forall_eq']
      exact ⟨fun hx => ⟨hx.trans hlt.le, hx⟩, And.right⟩
    · simp only [Option.mem_some_iff, forall_eq']
      exact ⟨fun hx => ⟨hx, hx.trans (not_lt.1 hlt)⟩, And.left⟩

/-- Clipping keeps the multiples between the two given. -/
theorem holds_clip {s : Span K} {t u x : K} :
    (s.clip t u).Holds x ↔ s.Holds x ∧ min t u ≤ x ∧ x ≤ max t u := by
  unfold clip
  split_ifs with h
  · rw [Holds, raise_le_iff, le_lower_iff, min_eq_right h.le, max_eq_left h.le]
    exact and_and_and_comm
  · rw [Holds, raise_le_iff, le_lower_iff, min_eq_left (not_lt.1 h), max_eq_right (not_lt.1 h)]
    exact and_and_and_comm

/-- Whether a range reaches forward, by its multiples. -/
theorem reachesForward_iff {s : Span K} : s.reachesForward = true ↔ ∃ x, 0 ≤ x ∧ s.Holds x := by
  obtain ⟨lo, hi⟩ := s
  cases hi with
  | none =>
    cases lo with
    | none => simpa [reachesForward, Holds] using ⟨0, le_rfl⟩
    | some l => simpa [reachesForward, Holds] using ⟨max l 0, le_max_right l 0, le_max_left l 0⟩
  | some h =>
    cases lo with
    | none =>
      simp only [reachesForward, Holds, decide_eq_true_eq, Option.mem_some_iff, forall_eq']
      constructor
      · exact fun hh => ⟨0, le_rfl, fun l hl => (Option.not_mem_none l hl).elim, hh⟩
      · rintro ⟨x, hx, -, hxh⟩
        exact hx.trans hxh
    | some l =>
      simp only [reachesForward, Holds, Bool.and_eq_true, decide_eq_true_eq, Option.mem_some_iff,
        forall_eq']
      constructor
      · rintro ⟨hl, hh⟩
        exact ⟨max l 0, le_max_right l 0, le_max_left l 0, max_le hl hh⟩
      · rintro ⟨x, hx, hlx, hxh⟩
        exact ⟨hlx.trans hxh, hx.trans hxh⟩

end Span

namespace Bounds

variable {box : Bounds K} {ray : Ray K} {axis : Axis}

/-- The multiples between those of the two faces are those at which the ray is between the faces. -/
theorem between_faces_iff {lo hi o rate x : K} (h : lo ≤ hi) (hrate : rate ≠ 0) :
    min ((lo - o) / rate) ((hi - o) / rate) ≤ x ∧ x ≤ max ((lo - o) / rate) ((hi - o) / rate) ↔
      lo ≤ o + rate * x ∧ o + rate * x ≤ hi := by
  have hsub : lo - o ≤ hi - o := sub_le_sub_right h o
  rcases lt_or_gt_of_ne hrate with hneg | hpos
  · have hle : (hi - o) / rate ≤ (lo - o) / rate := div_le_div_of_nonpos_of_le hneg.le hsub
    rw [min_eq_right hle, max_eq_left hle, div_le_iff_of_neg hneg, le_div_iff_of_neg hneg, and_comm]
    constructor
    all_goals exact fun ⟨h1, h2⟩ => ⟨by linarith, by linarith⟩
  · have hle : (lo - o) / rate ≤ (hi - o) / rate := div_le_div_of_nonneg_right hsub hpos.le
    rw [min_eq_left hle, max_eq_right hle, div_le_iff₀ hpos, le_div_iff₀ hpos]
    constructor
    all_goals exact fun ⟨h1, h2⟩ => ⟨by linarith, by linarith⟩

/-- **One axis** keeps the multiples at which the ray is between the faces across it. -/
theorem holds_clipRay (h : box.lo.get axis ≤ box.hi.get axis) {s : Span K} {x : K} :
    (∃ s' ∈ box.clipRay ray s axis, s'.Holds x) ↔
      s.Holds x ∧ box.lo.get axis ≤ (ray.pointAt x).get axis ∧
        (ray.pointAt x).get axis ≤ box.hi.get axis := by
  rw [Ray.get_pointAt]
  by_cases hrate : ray.direction.get axis = 0
  · -- the ray keeps its distance to both faces
    rw [hrate, zero_mul, add_zero, clipRay, if_pos (Exact.isZero_iff.2 hrate)]
    split_ifs with hout
    · rw [Bool.or_eq_true, decide_eq_true_eq, decide_eq_true_eq] at hout
      refine iff_of_false (fun ⟨s', hs', _⟩ => Option.not_mem_none s' hs') ?_
      exact fun ⟨_, hlo, hhi⟩ => hout.elim (not_lt.2 hlo) (not_lt.2 hhi)
    · rw [Bool.or_eq_true, decide_eq_true_eq, decide_eq_true_eq, not_or, not_lt, not_lt] at hout
      simp only [Option.mem_some_iff, exists_eq_left', hout, and_true]
  · rw [clipRay, if_neg (mt Exact.isZero_iff.1 hrate)]
    simp only [Option.mem_some_iff, exists_eq_left', Span.holds_clip, between_faces_iff h hrate]

/-- **All axes together** keep the multiples at which the ray is between the faces across each. -/
theorem holds_foldlM_clipRay (h : ∀ axis, box.lo.get axis ≤ box.hi.get axis) (axes : List Axis)
    {s : Span K} {x : K} :
    (∃ s' ∈ axes.foldlM (box.clipRay ray) s, s'.Holds x) ↔
      s.Holds x ∧ ∀ axis ∈ axes, box.lo.get axis ≤ (ray.pointAt x).get axis ∧
        (ray.pointAt x).get axis ≤ box.hi.get axis := by
  induction axes generalizing s with
  | nil => simp
  | cons axis axes ih =>
    rw [List.forall_mem_cons, ← and_assoc, ← holds_clipRay (h axis)]
    rw [List.foldlM_cons]
    cases box.clipRay ray s axis with
    | none => simp
    | some clipped => simpa using ih

/-- **A ray that has a point of the box passes the test.** -/
theorem meetsRay_of_contains {x : K} (hx : 0 ≤ x) (h : box.contains (ray.pointAt x) = true) :
    box.meetsRay ray = true := by
  have hbetween := contains_iff.1 h
  obtain ⟨s, hs, hholds⟩ :=
    (holds_foldlM_clipRay (fun axis => (hbetween axis).1.trans (hbetween axis).2) Axis.all).2
      ⟨Span.holds_full x, fun axis _ => hbetween axis⟩
  rw [meetsRay, Option.mem_def.1 hs]
  exact Span.reachesForward_iff.2 ⟨x, hx, hholds⟩

/-- **A ray that passes the test has a point of the box**: any multiple that is left and not negative. -/
theorem exists_contains_of_meetsRay (h : ∀ axis, box.lo.get axis ≤ box.hi.get axis)
    (hmeets : box.meetsRay ray = true) : ∃ x, 0 ≤ x ∧ box.contains (ray.pointAt x) = true := by
  unfold meetsRay at hmeets
  cases hclip : Axis.all.foldlM (box.clipRay ray) Span.full with
  | none =>
    rw [hclip] at hmeets
    cases hmeets
  | some s =>
    rw [hclip] at hmeets
    obtain ⟨x, hx, hholds⟩ := Span.reachesForward_iff.1 hmeets
    obtain ⟨-, hbetween⟩ := (holds_foldlM_clipRay h Axis.all).1 ⟨s, hclip, hholds⟩
    exact ⟨x, hx, contains_iff.2 fun axis => hbetween axis axis.mem_all⟩

/-! ## Main result -/

/-- **The slab test is exact.** A ray passes the test of a box, which may be flat along any axis, if and
only if a point that is not behind its origin is in the box or on its boundary. The direction may have any
components zero, or all of them; then the ray is its origin. -/
theorem slab_test_exact (box : Bounds K) (h : ∀ axis, box.lo.get axis ≤ box.hi.get axis) (ray : Ray K) :
    box.meetsRay ray = true ↔ ∃ x, 0 ≤ x ∧ ∀ axis,
      box.lo.get axis ≤ (ray.pointAt x).get axis ∧ (ray.pointAt x).get axis ≤ box.hi.get axis := by
  constructor
  · intro hmeets
    obtain ⟨x, hx, hcontains⟩ := exists_contains_of_meetsRay h hmeets
    exact ⟨x, hx, contains_iff.1 hcontains⟩
  · rintro ⟨x, hx, hbetween⟩
    exact meetsRay_of_contains hx (contains_iff.2 hbetween)

/-- A box that is flat along the last axis. -/
def tile : Bounds ℚ := ⟨⟨0, 0, 3⟩, ⟨1, 2, 3⟩⟩

/-- A ray in the plane of the tile that touches it in a corner, the same ray turned back, and a ray
without direction from the middle of a side. -/
theorem slab_test_at_tile : (∀ axis, tile.lo.get axis ≤ tile.hi.get axis) ∧
    tile.meetsRay ⟨⟨-1, 3, 3⟩, ⟨2, -2, 0⟩⟩ = true ∧ tile.meetsRay ⟨⟨-1, 3, 3⟩, ⟨-2, 2, 0⟩⟩ = false ∧
    tile.meetsRay ⟨⟨1, 1, 3⟩, ⟨0, 0, 0⟩⟩ = true := by
  have horder : ∀ axis, tile.lo.get axis ≤ tile.hi.get axis := by
    intro axis
    cases axis <;> norm_num [tile, Vec3.get]
  refine ⟨horder, ?_, ?_, ?_⟩
  · refine (slab_test_exact tile horder _).2 ⟨1 / 2, by norm_num, fun axis => ?_⟩
    rw [Ray.get_pointAt]
    cases axis <;> norm_num [tile, Vec3.get]
  · refine Bool.eq_false_iff.2 fun hmeets => ?_
    obtain ⟨x, hx, hbetween⟩ := (slab_test_exact tile horder _).1 hmeets
    have hlo : (0 : ℚ) ≤ -1 + -2 * x := (hbetween .x).1.trans_eq (Ray.get_pointAt _ x .x)
    linarith
  · refine (slab_test_exact tile horder _).2 ⟨0, le_rfl, fun axis => ?_⟩
    rw [Ray.get_pointAt]
    cases axis <;> norm_num [tile, Vec3.get]

end Bounds

end Isomesh
