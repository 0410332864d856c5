import Mathlib
import Isomesh.Proofs.ClosedSurface
import Isomesh.Proofs.CollapseTest

/-!
# Triangles that are pulled to a midpoint

The area normal of a triangle is linear in each corner. So the triangle that a collapse attaches to the
midpoint of an edge has the mean of two area normals, that of the triangle before and that of its
mirror at the other end. If these two do not look to opposite directions, the mean is not zero.

* `Triangle.le_dot_areaNormal_pull`: a triangle that does not turn over keeps its direction.
* `Triangle.mid_notMem_corners`: no triangle at an edge has the midpoint of the edge as a corner.
* `Mesh.Coherent.le_dot_areaNormal_pull`, `hasArea_pull`: the test before a collapse covers all triangles
  at one end.
-/

set_option autoImplicit false

namespace Isomesh

section Definitions

variable {K : Type} [Scalar K]

/-- Whether a triangle has an area, by the square of its area normal. -/
def Triangle.hasArea (t : Triangle K) : Bool := 0 < t.areaNormal.normSq

/-- Whether a triangle is at one end of an edge, but not at both. -/
def Triangle.atOne (s : Segment K) (t : Triangle K) : Bool := t.atEnd s && !t.atBoth s

end Definitions

theorem Triangle.mem_corners_replace {K : Type} {t : Triangle K} {place : Place} {p q : Vec3 K} :
    q ∈ (t.replace place p).corners ↔
      q = p ∨ q = (t.following place).1 ∨ q = (t.following place).2 := by
  cases place <;> simp [replace, following, corners] <;> tauto

variable {K : Type} [Field K] [LinearOrder K] [IsStrictOrderedRing K] [FloorRing K] [SquareRoot K]

namespace Vec3

theorem midpoint_eq (a b : Vec3 K) :
    a.midpoint b = ⟨(a.x + b.x) / 2, (a.y + b.y) / 2, (a.z + b.z) / 2⟩ := by
  simp only [midpoint, scale, add_def, Lattice.mul_half_eq]

theorem midpoint_comm (a b : Vec3 K) : a.midpoint b = b.midpoint a := by
  simp only [midpoint_eq, add_comm]

theorem midpoint_ne_left {a b : Vec3 K} (h : a ≠ b) : a.midpoint b ≠ a := by
  intro heq
  rw [midpoint_eq] at heq
  refine h (ext_get fun axis => ?_)
  have haxis := congrArg (Vec3.get · axis) heq
  cases axis <;> simp only [get] at haxis ⊢ <;> linarith

theorem midpoint_ne_right {a b : Vec3 K} (h : a ≠ b) : a.midpoint b ≠ b := by
  rw [midpoint_comm]
  exact midpoint_ne_left h.symm

theorem dot_midpoint_left (u v : Vec3 K) : (u.midpoint v).dot u = (u.normSq + u.dot v) / 2 := by
  simp only [midpoint_eq, dot, normSq]
  ring

theorem dot_comm (u v : Vec3 K) : u.dot v = v.dot u := by
  simp only [dot]
  ring

theorem normSq_pos_of_dot_pos {u v : Vec3 K} (h : 0 < u.dot v) : 0 < u.normSq := by
  refine u.normSq_nonneg.lt_of_ne fun hzero => ?_
  obtain ⟨hx, hy, hz⟩ := eq_zero_of_normSq_eq_zero hzero.symm
  simp [dot, hx, hy, hz] at h

end Vec3

namespace Triangle

/-! ## Area normals -/

theorem areaNormal_replace_midpoint (t : Triangle K) (place : Place) (p q : Vec3 K) :
    (t.replace place (p.midpoint q)).areaNormal =
      (t.replace place p).areaNormal.midpoint (t.replace place q).areaNormal := by
  cases place <;>
    simp only [replace, areaNormal, Vec3.midpoint_eq, Vec3.cross, Vec3.sub_def, Vec3.mk.injEq] <;>
    refine ⟨?_, ?_, ?_⟩ <;> ring

/-- Going around a triangle does not change its area normal. -/
theorem areaNormal_following (t : Triangle K) (place : Place) (p : Vec3 K) :
    areaNormal ⟨(t.following place).1, (t.following place).2, p⟩ = (t.replace place p).areaNormal := by
  cases place <;>
    simp only [replace, following, areaNormal, Vec3.cross, Vec3.sub_def, Vec3.mk.injEq] <;>
    refine ⟨?_, ?_, ?_⟩ <;> ring

theorem areaNormal_replace_following {t : Triangle K} {place : Place} {p : Vec3 K}
    (h : p = (t.following place).1 ∨ p = (t.following place).2) :
    (t.replace place p).areaNormal = ⟨0, 0, 0⟩ := by
  rcases h with rfl | rfl <;> cases place <;>
    simp only [replace, following, areaNormal, Vec3.cross, Vec3.sub_def, Vec3.mk.injEq] <;>
    refine ⟨?_, ?_, ?_⟩ <;> ring

theorem ne_following_of_hasArea (t : Triangle K) (place : Place) {p : Vec3 K}
    (h : (t.replace place p).hasArea = true) :
    p ≠ (t.following place).1 ∧ p ≠ (t.following place).2 := by
  rw [← not_or]
  intro heq
  simp [hasArea, areaNormal_replace_following heq, Vec3.normSq, Vec3.dot] at h

/-! ## Corners -/

theorem replace_placeOf {t : Triangle K} {p : Vec3 K} {place : Place}
    (h : t.placeOf p.key = some place) : t.replace place p = t := by
  simp only [placeOf, Exact.key_inj] at h
  split at h
  · cases h
    subst p
    rfl
  · split at h
    · cases h
      subst p
      rfl
    · split at h
      · cases h
        subst p
        rfl
      · cases h

/-- The sides of a triangle with an area have different ends. -/
theorem ne_of_mem_sides {t : Triangle K} (h : t.hasArea = true) {e : Vec3 K × Vec3 K}
    (he : e ∈ t.sides) : e.1 ≠ e.2 := by
  simp only [sides, List.mem_cons, List.not_mem_nil, or_false] at he
  rcases he with rfl | rfl | rfl
  · exact (ne_following_of_hasArea t .first h).1
  · exact (ne_following_of_hasArea t .second h).1
  · exact (ne_following_of_hasArea t .third h).1

variable {s : Segment K} {t : Triangle K}

theorem hasCorner_eq_false_iff {p : Vec3 K} : t.hasCorner p.key = false ↔ p ∉ t.corners := by
  rw [← hasCorner_iff, Bool.not_eq_true]

theorem atEnd_iff : t.atEnd s = true ↔ s.lo ∈ t.corners ∨ s.hi ∈ t.corners := by
  rw [atEnd, Bool.or_eq_true, hasCorner_iff, hasCorner_iff]

theorem atBoth_iff : t.atBoth s = true ↔ s.lo ∈ t.corners ∧ s.hi ∈ t.corners := by
  rw [atBoth, Bool.and_eq_true, hasCorner_iff, hasCorner_iff]

/-- A triangle at one end is pulled by the corner at that end. -/
theorem exists_place_of_atOne (h : t.atOne s = true) :
    ∃ place p q, (p = s.lo ∧ q = s.hi ∨ p = s.hi ∧ q = s.lo) ∧ q ∉ t.corners ∧
      t.placeOf p.key = some place ∧ t.pull s = t.replace place s.mid := by
  simp only [atOne, atEnd, atBoth, ← hasCorner_iff, hasCorner, pull] at *
  cases hlo : t.placeOf s.lo.key with
  | some place => exact ⟨place, s.lo, s.hi, .inl ⟨rfl, rfl⟩, by simpa [hlo] using h, hlo, by simp⟩
  | none =>
    cases hhi : t.placeOf s.hi.key with
    | some place => exact ⟨place, s.hi, s.lo, .inr ⟨rfl, rfl⟩, by simp [hlo], hhi, by simp⟩
    | none => simp [hlo, hhi] at h

/-! ## Pulled triangles -/

/-- **A triangle that does not turn over** keeps its direction and at least half of its area. -/
theorem le_dot_areaNormal_pull (hone : t.atOne s = true)
    (hturn : ∀ place p q, p = s.lo ∧ q = s.hi ∨ p = s.hi ∧ q = s.lo → q ∉ t.corners →
      t.placeOf p.key = some place → Mesh.turnsOver s (t.following place) = false) :
    t.areaNormal.normSq / 2 ≤ (t.pull s).areaNormal.dot t.areaNormal := by
  obtain ⟨place, a, b, hab, hb, hplace, hpull⟩ := exists_place_of_atOne hone
  have ht := replace_placeOf hplace
  have hdot : 0 ≤ (t.replace place s.lo).areaNormal.dot (t.replace place s.hi).areaNormal := by
    have hturn := hturn place a b hab hb hplace
    simpa [Mesh.turnsOver, areaNormal_following] using hturn
  rw [hpull, Segment.mid, areaNormal_replace_midpoint]
  -- the mean of both normals has an inner product with each that is at least half its square
  rcases hab with ⟨rfl, rfl⟩ | ⟨rfl, rfl⟩
  · rw [ht] at hdot ⊢
    rw [Vec3.dot_midpoint_left]
    linarith
  · rw [ht, Vec3.dot_comm] at hdot
    rw [ht, Vec3.midpoint_comm, Vec3.dot_midpoint_left]
    linarith

theorem dot_areaNormal_pos {u : Triangle K} (harea : t.hasArea = true)
    (h : t.areaNormal.normSq / 2 ≤ u.areaNormal.dot t.areaNormal) :
    0 < u.areaNormal.dot t.areaNormal := by
  simp only [hasArea, decide_eq_true_eq] at harea
  linarith

/-- The corners of a pulled triangle: the midpoint has taken the place of an end. -/
theorem mem_corners_pull (harea : t.hasArea = true) (hone : t.atOne s = true) {p : Vec3 K} :
    p ∈ (t.pull s).corners ↔ p = s.mid ∨ p ∈ t.corners ∧ p ≠ s.lo ∧ p ≠ s.hi := by
  obtain ⟨place, a, b, hab, hb, hplace, hpull⟩ := exists_place_of_atOne hone
  have ht := replace_placeOf hplace
  rw [← ht] at harea hb
  obtain ⟨hne1, hne2⟩ := ne_following_of_hasArea t place harea
  rw [mem_corners_replace, not_or, not_or] at hb
  rw [hpull, mem_corners_replace]
  conv_rhs => rw [← ht, mem_corners_replace]
  rcases hab with ⟨rfl, rfl⟩ | ⟨rfl, rfl⟩ <;> grind

/-- No triangle at an edge has the midpoint of the edge as a corner, if it has an area before and
after. -/
theorem mid_notMem_corners (hne : s.lo ≠ s.hi) (harea : t.hasArea = true) (hend : t.atEnd s = true)
    (hpulled : t.atOne s = true → (t.pull s).hasArea = true) : s.mid ∉ t.corners := by
  intro hmid
  cases hboth : t.atBoth s with
  | false =>
    have hone : t.atOne s = true := by simp [atOne, hend, hboth]
    obtain ⟨place, a, b, hab, -, hplace, hpull⟩ := exists_place_of_atOne hone
    have hpulled := hpulled hone
    rw [hpull] at hpulled
    obtain ⟨hne1, hne2⟩ := ne_following_of_hasArea t place hpulled
    rw [← replace_placeOf hplace, mem_corners_replace] at hmid
    have hma : s.mid ≠ a := by
      rcases hab with ⟨rfl, rfl⟩ | ⟨rfl, rfl⟩
      · exact Vec3.midpoint_ne_left hne
      · exact Vec3.midpoint_ne_right hne
    exact hmid.elim hma fun hmid => hmid.elim hne1 hne2
  | true =>
    obtain ⟨hlo, hhi⟩ := atBoth_iff.1 hboth
    obtain ⟨place, hplace⟩ := Option.isSome_iff_exists.1 (hasCorner_iff.2 hmid)
    have ht := replace_placeOf hplace
    rw [← ht, mem_corners_replace] at hlo hhi
    -- both ends are among the other two corners, so the three lie on a line
    have hlo := hlo.resolve_left (Vec3.midpoint_ne_left hne).symm
    have hhi := hhi.resolve_left (Vec3.midpoint_ne_right hne).symm
    rw [← ht, Segment.mid, hasArea, areaNormal_replace_midpoint, areaNormal_replace_following hlo,
      areaNormal_replace_following hhi] at harea
    simp [Vec3.midpoint_eq, Vec3.normSq, Vec3.dot] at harea

end Triangle

/-! ## The test before a collapse -/

namespace Mesh.Coherent

variable {m : Mesh K} {s : Segment K} {t : Triangle K}

/-- The test before a collapse covers all triangles at one end. -/
theorem le_dot_areaNormal_pull (h : m.Coherent) (hcan : m.canCollapse s = true) (ht : t ∈ m.triangles)
    (hone : t.atOne s = true) :
    t.areaNormal.normSq / 2 ≤ (t.pull s).areaNormal.dot t.areaNormal := by
  simp only [canCollapse, Bool.and_eq_true, Bool.not_eq_true', List.any_eq_false,
    List.mem_append] at hcan
  refine t.le_dot_areaNormal_pull hone fun place p q hpq hq hplace => ?_
  have hside := h.following_mem_outerSides ht hplace (Triangle.hasCorner_eq_false_iff.2 hq)
  rw [← Bool.not_eq_true]
  rcases hpq with ⟨rfl, rfl⟩ | ⟨rfl, rfl⟩
  · exact hcan.2 _ (.inl hside)
  · exact hcan.2 _ (.inr hside)

/-- A triangle with area keeps one. -/
theorem hasArea_pull (h : m.Coherent) (hcan : m.canCollapse s = true) (ht : t ∈ m.triangles)
    (harea : t.hasArea = true) (hone : t.atOne s = true) : (t.pull s).hasArea = true := by
  have hdot := Triangle.dot_areaNormal_pos harea (h.le_dot_areaNormal_pull hcan ht hone)
  exact decide_eq_true (Vec3.normSq_pos_of_dot_pos hdot)

end Mesh.Coherent

end Isomesh
