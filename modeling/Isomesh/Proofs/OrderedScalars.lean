import Mathlib
import Isomesh.Bounds
import Isomesh.Proofs.Exact

/-!
# Scalars in order

Boxes come about by comparing coordinates, and what they are good for does not need exact arithmetic. It
needs scalars that are in order as far as they are defined. An undefined number is known by not comparing
with itself.

* `OrderedScalar`: the laws. Ordered fields obey them, and so do doubles.
* `Bounds.Spans`: a box that reaches just as far as some coordinates.
* `Bounds.Spans.join`: the box around two boxes reaches just as far as both.
* `Vec3.get_le_get_widestAxis`: the widest axis has the largest coordinate.
-/

set_option autoImplicit false

namespace Isomesh

/-- Whether a number is defined. -/
def Scalar.Defined {K : Type} [Scalar K] (x : K) : Prop := x ≤ x

instance {K : Type} [Scalar K] (x : K) : Decidable (Scalar.Defined x) :=
  inferInstanceAs (Decidable (x ≤ x))

/-- Scalars that are in order as far as they are defined. -/
class OrderedScalar (K : Type) [Scalar K] : Prop where
  le_trans {a b c : K} : a ≤ b → b ≤ c → a ≤ c
  le_total {a b : K} : Scalar.Defined a → Scalar.Defined b → a ≤ b ∨ b ≤ a
  lt_iff {a b : K} : a < b ↔ a ≤ b ∧ ¬b ≤ a
  defined_of_isFinite {a : K} : Scalar.isFinite a = true → Scalar.Defined a
  /-- A difference of ordinary numbers may be too large to be ordinary, but it is defined. -/
  defined_sub {a b : K} : Scalar.isFinite a = true → Scalar.isFinite b = true → Scalar.Defined (a - b)

/-- Numbers of an ordered field are all defined. -/
instance Exact.ordered {K : Type} [Field K] [LinearOrder K] [IsStrictOrderedRing K] [FloorRing K]
    [SquareRoot K] : OrderedScalar K where
  le_trans := le_trans
  le_total _ _ := le_total _ _
  lt_iff := lt_iff_le_not_ge
  defined_of_isFinite _ := le_refl _
  defined_sub _ _ := le_refl _

variable {K : Type} [Scalar K]

/-- Whether a box reaches along an axis from the least to the greatest of some coordinates. -/
structure Bounds.Spans (box : Bounds K) (axis : Axis) (s : Set K) : Prop where
  isLeast : IsLeast s (box.lo.get axis)
  isGreatest : IsGreatest s (box.hi.get axis)

/-- The box of a single point. -/
theorem Bounds.spans_singleton {p : Vec3 K} {axis : Axis} (h : Scalar.Defined (p.get axis)) :
    Spans ⟨p, p⟩ axis {p.get axis} :=
  ⟨⟨rfl, fun _ hc => hc ▸ h⟩, rfl, fun _ hc => hc ▸ h⟩

variable [OrderedScalar K]

namespace OrderedScalar

variable {a b : K} {s t : Set K}

theorem le_of_not_lt (ha : Scalar.Defined a) (hb : Scalar.Defined b) (h : ¬a < b) : b ≤ a := by
  by_contra hle
  exact h (lt_iff.2 ⟨(le_total ha hb).resolve_right hle, hle⟩)

theorem le_of_lt (h : a < b) : a ≤ b := (lt_iff.1 h).1

/-- The smaller of the least numbers of two sets is the least of both. -/
theorem isLeast_union (ha : IsLeast s a) (hb : IsLeast t b) : IsLeast (s ∪ t) (Scalar.lesser a b) := by
  rw [Scalar.lesser]
  split_ifs with hle
  · exact ⟨.inl ha.1, fun c hc => hc.elim (fun hc => ha.2 hc) fun hc => le_trans hle (hb.2 hc)⟩
  · have hge : b ≤ a := (le_total (ha.2 ha.1) (hb.2 hb.1)).resolve_left hle
    exact ⟨.inr hb.1, fun c hc => hc.elim (fun hc => le_trans hge (ha.2 hc)) fun hc => hb.2 hc⟩

/-- The larger of the greatest numbers of two sets is the greatest of both. -/
theorem isGreatest_union (ha : IsGreatest s a) (hb : IsGreatest t b) :
    IsGreatest (s ∪ t) (Scalar.greater a b) := by
  rw [Scalar.greater]
  split_ifs with hle
  · exact ⟨.inl ha.1, fun c hc => hc.elim (fun hc => ha.2 hc) fun hc => le_trans (hb.2 hc) hle⟩
  · have hge : a ≤ b := (le_total (ha.2 ha.1) (hb.2 hb.1)).resolve_right hle
    exact ⟨.inr hb.1, fun c hc => hc.elim (fun hc => le_trans (ha.2 hc) hge) fun hc => hb.2 hc⟩

end OrderedScalar

/-- **The box around two boxes reaches just as far as both.** -/
theorem Bounds.Spans.join {a b : Bounds K} {axis : Axis} {s t : Set K} (ha : a.Spans axis s)
    (hb : b.Spans axis t) : (a.join b).Spans axis (s ∪ t) := by
  have hlo : (a.join b).lo.get axis = Scalar.lesser (a.lo.get axis) (b.lo.get axis) := by
    cases axis <;> rfl
  have hhi : (a.join b).hi.get axis = Scalar.greater (a.hi.get axis) (b.hi.get axis) := by
    cases axis <;> rfl
  constructor
  · rw [hlo]
    exact OrderedScalar.isLeast_union ha.isLeast hb.isLeast
  · rw [hhi]
    exact OrderedScalar.isGreatest_union ha.isGreatest hb.isGreatest

/-! ## The widest axis -/

/-- **No coordinate is larger than the one along the widest axis.** -/
theorem Vec3.get_le_get_widestAxis {v : Vec3 K} (h : ∀ axis, Scalar.Defined (v.get axis)) (a : Axis) :
    v.get a ≤ v.get v.widestAxis := by
  have hxy : ∀ a, a ≠ .z → v.get a ≤ v.get (if v.x < v.y then .y else .x) := by
    intro a ha
    split_ifs with hlt
    · cases a with
      | x => exact OrderedScalar.le_of_lt hlt
      | y => exact h .y
      | z => exact absurd rfl ha
    · cases a with
      | x => exact h .x
      | y => exact OrderedScalar.le_of_not_lt (h .x) (h .y) hlt
      | z => exact absurd rfl ha
  rw [widestAxis]
  generalize (if v.x < v.y then Axis.y else Axis.x) = first at hxy ⊢
  split_ifs with hlt
  · by_cases ha : a = .z
    · exact ha ▸ h .z
    · exact OrderedScalar.le_trans (hxy a ha) (OrderedScalar.le_of_lt hlt)
  · by_cases ha : a = .z
    · exact ha ▸ OrderedScalar.le_of_not_lt (h first) (h .z) hlt
    · exact hxy a ha

end Isomesh
