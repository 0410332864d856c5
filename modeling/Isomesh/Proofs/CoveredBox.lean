import Mathlib
import Isomesh.Proofs.BracketedContour

/-!
# A lattice covers its box, and the border is outside

The number of points along an axis is the number of whole cells that fit into the box and three more. In
exact arithmetic that puts the first point before the box, the last one behind it by no more than a cell,
and all others into the box, also where the box is flat or its faces are lattice points. So a border
point is never in the box, and a solid that keeps to its box passes the border check in every position
of the window.

* `Lattice.Covers`: how a lattice lies to a box.
* `Lattice.countAlong_eq`, `Lattice.covers_of_around`: the lattice over a box.
* `Lattice.Covers.contains_eq_false`: the border is outside.
* `sampling_of_confined`: the main result.
-/

set_option autoImplicit false

namespace Isomesh

section Definitions

variable {K : Type} [Scalar K]

/-- Whether every point of the solid is in its box. -/
def Solid.Confined (solid : Solid K) : Prop :=
  ∀ p, solid.contains p = true → solid.bounds.contains p = true

/-- Whether the first point along each axis is before the box, the last one behind it by no more than a
cell, and all others in it. -/
structure Lattice.Covers (l : Lattice K) (box : Bounds K) : Prop where
  first_lt : ∀ axis, l.coord axis 0 < box.lo.get axis
  lt_last : ∀ axis, box.hi.get axis < l.coord axis (l.count axis - 1)
  last_le : ∀ axis, l.coord axis (l.count axis - 1) ≤ box.hi.get axis + l.delta
  inner : ∀ axis i, 0 < i → i + 1 < l.count axis →
    box.lo.get axis ≤ l.coord axis i ∧ l.coord axis i ≤ box.hi.get axis

/-- Whether a box is refused because a lattice over it would have too many points. -/
def Lattice.TooLarge (box : Bounds K) (delta : K) : Prop :=
  (∃ axis, around box delta = .error (.parameter (.axisTooLong axis))) ∨
    ∃ nx ny, around box delta = .error (.parameter (.planeTooLarge nx ny))

end Definitions

/-- A computation fails where one of its parts fails first. -/
theorem of_bind_eq_error {ε α β : Type} {x : Except ε α} {f : α → Except ε β} {e : ε}
    (h : x >>= f = .error e) : x = .error e ∨ ∃ a, x = .ok a ∧ f a = .error e := by
  cases x with
  | error e' =>
    cases h
    exact .inl rfl
  | ok a => exact .inr ⟨a, rfl, h⟩

variable {K : Type} [Field K] [LinearOrder K] [IsStrictOrderedRing K] [FloorRing K] [SquareRoot K]

namespace Lattice

variable {box : Bounds K} {delta : K} {l : Lattice K}

/-! ## The number of points -/

/-- **The number of points along an axis** is that of the cells that fit in, and three more. -/
theorem countAlong_eq {axis : Axis} (h : box.lo.get axis ≤ box.hi.get axis) :
    countAlong box delta axis =
      if ⌊(box.hi.get axis - box.lo.get axis) / delta⌋₊ + 3 < countLimit then
        .ok (⌊(box.hi.get axis - box.lo.get axis) / delta⌋₊ + 3)
      else .error (.parameter (.axisTooLong axis)) := by
  unfold countAlong
  simp only [Exact.isFinite_eq_true, Bool.and_self, Bool.not_true, Bool.false_eq_true, if_false,
    if_neg (not_lt.2 h), Bool.true_and, decide_eq_true_eq]
  rfl

theorem countAlong_eq_ok {axis : Axis} {n : Nat} (h : countAlong box delta axis = .ok n) :
    box.lo.get axis ≤ box.hi.get axis ∧ n = ⌊(box.hi.get axis - box.lo.get axis) / delta⌋₊ + 3 := by
  by_cases hle : box.lo.get axis ≤ box.hi.get axis
  · rw [countAlong_eq hle] at h
    split at h
    · cases h
      exact ⟨hle, rfl⟩
    · cases h
  · unfold countAlong at h
    simp only [Exact.isFinite_eq_true, Bool.and_self, Bool.not_true, Bool.false_eq_true, if_false,
      if_pos (not_le.1 hle)] at h
    cases h

theorem countAlong_eq_error {axis : Axis} {e : Error K} (h : countAlong box delta axis = .error e) :
    ∃ fault, e = .parameter fault := by
  unfold countAlong at h
  simp only at h
  split at h
  · cases h
    exact ⟨_, rfl⟩
  · split at h
    · cases h
      exact ⟨_, rfl⟩
    · split at h
      · cases h
      · cases h
        exact ⟨_, rfl⟩

/-- What is wrong with a box that is refused. -/
theorem around_eq_error {e : Error K} (h : around box delta = .error e) :
    isCellSize delta = false ∧ e = .parameter (.cellSize delta) ∨
      (∃ axis, countAlong box delta axis = .error e) ∨
      ∃ nx ny, e = .parameter (.planeTooLarge nx ny) := by
  unfold around at h
  split at h
  · rename_i hsize
    cases h
    exact .inl ⟨by simpa using hsize, rfl⟩
  · rcases of_bind_eq_error h with hx | ⟨nx, -, h⟩
    · exact .inr (.inl ⟨.x, hx⟩)
    · rcases of_bind_eq_error h with hy | ⟨ny, -, h⟩
      · exact .inr (.inl ⟨.y, hy⟩)
      · rcases of_bind_eq_error h with hz | ⟨nz, -, h⟩
        · exact .inr (.inl ⟨.z, hz⟩)
        · split at h
          · cases h
            exact .inr (.inr ⟨nx, ny, rfl⟩)
          · cases h

/-- What is known of each axis of an accepted lattice. -/
theorem axis_of_around (h : around box delta = .ok l) (axis : Axis) :
    (∀ i, l.coord axis i = box.lo.get axis - delta + i * delta) ∧
      countAlong box delta axis = .ok (l.count axis) := by
  obtain ⟨-, hdelta, horigin, hx, hy, hz⟩ := around_spec h
  constructor
  · intro i
    rw [coord, horigin, hdelta]
    cases axis <;> rfl
  · cases axis
    · exact hx
    · exact hy
    · exact hz

/-! ## How a lattice lies to its box -/

/-- **A lattice covers its box.** -/
theorem covers_of_around (h : around box delta = .ok l) : l.Covers box := by
  obtain ⟨hdelta, hpos⟩ := delta_of_around h
  rw [hdelta] at hpos
  -- `n` whole cells fit into the box along an axis, and `n + 1` do not
  have hfits (axis : Axis) : ∃ n : ℕ, l.count axis = n + 3 ∧
      n * delta ≤ box.hi.get axis - box.lo.get axis ∧
      box.hi.get axis - box.lo.get axis < (n + 1) * delta := by
    obtain ⟨hle, hcount⟩ := countAlong_eq_ok (axis_of_around h axis).2
    have hspan : 0 ≤ (box.hi.get axis - box.lo.get axis) / delta :=
      div_nonneg (sub_nonneg.2 hle) hpos.le
    exact ⟨_, hcount, (le_div_iff₀ hpos).1 (Nat.floor_le hspan),
      (div_lt_iff₀ hpos).1 (Nat.lt_floor_add_one _)⟩
  have hlast (axis : Axis) : ∃ n : ℕ, l.coord axis (l.count axis - 1) =
      box.lo.get axis + (n + 1) * delta ∧ n * delta ≤ box.hi.get axis - box.lo.get axis ∧
      box.hi.get axis - box.lo.get axis < (n + 1) * delta := by
    obtain ⟨n, hcount, hlo, hhi⟩ := hfits axis
    refine ⟨n, ?_, hlo, hhi⟩
    rw [(axis_of_around h axis).1, hcount, show n + 3 - 1 = n + 2 by omega]
    push_cast
    ring
  refine ⟨fun axis => ?_, fun axis => ?_, fun axis => ?_, fun axis i hi hn => ?_⟩
  · rw [(axis_of_around h axis).1, Nat.cast_zero, zero_mul, add_zero]
    exact sub_lt_self _ hpos
  · obtain ⟨n, heq, -, hhi⟩ := hlast axis
    rw [heq]
    linarith
  · obtain ⟨n, heq, hlo, -⟩ := hlast axis
    rw [heq, hdelta]
    linarith
  · obtain ⟨n, hcount, hlo, -⟩ := hfits axis
    obtain ⟨j, rfl⟩ : ∃ j, i = j + 1 := ⟨i - 1, by omega⟩
    have hj : (j : K) ≤ n := by
      have : j ≤ n := by omega
      exact_mod_cast this
    have hlow : 0 ≤ j * delta := mul_nonneg (Nat.cast_nonneg j) hpos.le
    have hhigh : j * delta ≤ n * delta := mul_le_mul_of_nonneg_right hj hpos.le
    rw [(axis_of_around h axis).1]
    push_cast
    constructor <;> linarith

/-- **A box has a lattice** unless that would have too many points. -/
theorem covers_or_tooLarge (hbox : ∀ axis, box.lo.get axis ≤ box.hi.get axis) (hdelta : 0 < delta) :
    (∃ l, around box delta = .ok l ∧ l.Covers box) ∨ TooLarge box delta := by
  cases haround : around box delta with
  | ok l => exact .inl ⟨l, rfl, covers_of_around haround⟩
  | error e =>
    right
    rcases around_eq_error haround with ⟨hsize, -⟩ | ⟨axis, hcount⟩ | ⟨nx, ny, rfl⟩
    · rw [isCellSize, Exact.isFinite_eq_true, Bool.true_and, decide_eq_true hdelta] at hsize
      cases hsize
    · rw [countAlong_eq (hbox axis)] at hcount
      split at hcount
      · cases hcount
      · cases hcount
        exact .inl ⟨axis, haround⟩
    · exact .inr ⟨nx, ny, haround⟩

/-- **The border is outside** of the box that a lattice covers. -/
theorem Covers.contains_eq_false (h : l.Covers box) {i j k : Nat} (hborder : l.isBorder i j k = true) :
    box.contains (l.corner i j k) = false := by
  rw [← Bool.not_eq_true, Bounds.contains_iff]
  intro hin
  have hfirst (axis : Axis) : ¬(l.corner i j k).get axis = l.coord axis 0 := fun heq =>
    ((hin axis).1.trans_eq heq).not_gt (h.first_lt axis)
  have hlast (axis : Axis) : ¬(l.corner i j k).get axis = l.coord axis (l.count axis - 1) := fun heq =>
    (heq.symm.trans_le (hin axis).2).not_gt (h.lt_last axis)
  simp only [isBorder, Bool.or_eq_true, decide_eq_true_eq] at hborder
  rcases hborder with ((((hi | hj) | hk) | hi) | hj) | hk
  · exact hfirst .x (by rw [hi]; rfl)
  · exact hfirst .y (by rw [hj]; rfl)
  · exact hfirst .z (by rw [hk]; rfl)
  · exact hlast .x (by rw [count, ← hi]; rfl)
  · exact hlast .y (by rw [count, ← hj]; rfl)
  · exact hlast .z (by rw [count, ← hk]; rfl)

theorem Covers.not_hasStray {solid : Solid K} (h : l.Covers solid.bounds) (hsolid : solid.Confined)
    (k : Nat) : ¬l.HasStray solid k := by
  rintro ⟨i, j, -, -, hborder, hcontains⟩
  have hin := hsolid _ hcontains
  rw [h.contains_eq_false hborder] at hin
  cases hin

end Lattice

/-! ## Sampling -/

theorem Resolution.validate_spec (r : Resolution K) :
    r.validate = .ok () ∧ 2 ≤ r.planes ∨ ∃ fault, r.validate = .error (.parameter fault) := by
  unfold validate
  split_ifs with hsize hplanes
  · exact .inr ⟨_, rfl⟩
  · exact .inr ⟨_, rfl⟩
  · exact .inl ⟨rfl, not_lt.1 hplanes⟩

theorem Lattice.around_eq_ok_or (box : Bounds K) (delta : K) :
    (∃ l, around box delta = .ok l) ∨ ∃ fault, around box delta = .error (.parameter fault) := by
  cases h : around box delta with
  | ok l => exact .inl ⟨l, rfl⟩
  | error e =>
    right
    rcases around_eq_error h with ⟨-, rfl⟩ | ⟨axis, hcount⟩ | ⟨nx, ny, rfl⟩
    · exact ⟨_, rfl⟩
    · obtain ⟨fault, rfl⟩ := countAlong_eq_error hcount
      exact ⟨fault, rfl⟩
    · exact ⟨_, rfl⟩

/-- A window that does not fit into memory is refused. -/
theorem Window.onto_eq_error (solid : Solid K) {l : Lattice K} {planes : Nat}
    (h : allocationLimit ≤ l.nx * l.ny * planeCount l planes) :
    ∃ fault, onto solid l planes = .error (.parameter fault) := by
  rw [onto_eq, if_pos h]
  split
  · exact ⟨_, rfl⟩
  · exact ⟨_, rfl⟩

/-- A solid is sampled with the lattice over its box and a window that fits into memory, or a parameter
is refused. -/
theorem accepted_or_refused (solid : Solid K) (r : Resolution K) :
    (∃ l, Lattice.around solid.bounds r.delta = .ok l ∧ 2 ≤ r.planes ∧
      l.nx * l.ny * Window.planeCount l r.planes < Window.allocationLimit) ∨
    ∃ fault, roughContour solid r = .error (.parameter fault) := by
  unfold roughContour
  rcases r.validate_spec with ⟨hvalid, hp⟩ | ⟨fault, hvalid⟩ <;> rw [hvalid]
  · rcases Lattice.around_eq_ok_or solid.bounds r.delta with ⟨l, hl⟩ | ⟨fault, hl⟩ <;> rw [hl]
    · by_cases hsize : l.nx * l.ny * Window.planeCount l r.planes < Window.allocationLimit
      · exact .inl ⟨l, rfl, hp, hsize⟩
      · obtain ⟨fault, honto⟩ := Window.onto_eq_error solid (not_lt.1 hsize)
        refine .inr ⟨fault, ?_⟩
        show (Window.onto solid l r.planes >>= _) = _
        rw [honto]
        rfl
    · exact .inr ⟨fault, rfl⟩
  · exact .inr ⟨fault, rfl⟩

/-- A confined solid is sampled with success. -/
theorem exists_contour_of_confined {solid : Solid K} (hsolid : solid.Confined) {r : Resolution K}
    {l : Lattice K} (hl : Lattice.around solid.bounds r.delta = .ok l) (hp : 2 ≤ r.planes)
    (hsize : l.nx * l.ny * Window.planeCount l r.planes < Window.allocationLimit) :
    ∃ mesh, contour solid r = .ok mesh := by
  have hclean : l.firstStray? solid 0 l.nz = none := Lattice.firstStray?_eq_none_iff.2 fun k _ _ =>
    (Lattice.covers_of_around hl).not_hasStray hsolid k
  have hrough : roughContour solid r = .ok (l, .ofTriangles (l.directSurface solid)) := by
    rw [roughContour_eq hl hp hsize, Lattice.directSweep, hclean]
    rfl
  obtain ⟨refined, hrefined⟩ := exists_refine_eq_ok fun v hv => by
    obtain ⟨_, _, _, _, q, hq, _⟩ :=
      brackets_of_mem_vertices (Lattice.delta_of_around hl).2
        (rfl : _ = Mesh.ofTriangles (l.directSurface solid)) r.refinements hv
    exact ⟨q, hq⟩
  unfold contour
  rw [hrough]
  by_cases hsteps : r.refinements = 0
  · exact ⟨_, if_pos hsteps⟩
  · exact ⟨refined, (if_neg hsteps).trans hrefined⟩

/-- **The border check never stops the sampling of a confined solid.** A box has a lattice that covers it,
unless that would have too many points. Over an accepted lattice and through a window of two or more
planes that fits into memory, sampling returns a surface, refined or not. Whatever is accepted, it never
ends with a point of the solid outside of its box. -/
theorem sampling_of_confined {solid : Solid K} (hsolid : solid.Confined) :
    (∀ (box : Bounds K) (delta : K), (∀ axis, box.lo.get axis ≤ box.hi.get axis) → 0 < delta →
      (∃ l, Lattice.around box delta = .ok l ∧ l.Covers box) ∨ Lattice.TooLarge box delta) ∧
    ∀ r : Resolution K,
      (∀ l, Lattice.around solid.bounds r.delta = .ok l → 2 ≤ r.planes →
        l.nx * l.ny * max 1 (min r.planes l.nz) < Window.allocationLimit →
        ∃ mesh, contour solid r = .ok mesh) ∧
      ∀ p, contour solid r ≠ .error (.solidOutsideBounds p) := by
  refine ⟨fun box delta hbox hdelta => Lattice.covers_or_tooLarge hbox hdelta, fun r => ⟨?_, ?_⟩⟩
  · exact fun l hl hp hsize => exists_contour_of_confined hsolid hl hp hsize
  · intro p hfailed
    rcases accepted_or_refused solid r with ⟨l, hl, hp, hsize⟩ | ⟨fault, hrefused⟩
    · obtain ⟨mesh, hmesh⟩ := exists_contour_of_confined hsolid hl hp hsize
      rw [hmesh] at hfailed
      cases hfailed
    · unfold contour at hfailed
      rw [hrefused] at hfailed
      cases hfailed

/-- A flat box, two whole cells long, is sampled through a window that has to move. -/
theorem sampling_of_column : column.Confined ∧ Window.tower.Covers column.bounds ∧ Window.tower.nz = 5 ∧
    ∃ mesh, contour column ⟨1, 3, 2⟩ = .ok mesh := by
  have hconfined : column.Confined := fun p hp => hp
  have haround : Lattice.around column.bounds 1 = .ok Window.tower := by decide +kernel
  have hbox (axis : Axis) : column.bounds.lo.get axis ≤ column.bounds.hi.get axis := by
    cases axis <;> decide +kernel
  obtain ⟨hcovers, hsampled⟩ := sampling_of_confined hconfined
  refine ⟨hconfined, ?_, rfl, ?_⟩
  · rcases hcovers column.bounds 1 hbox one_pos with ⟨l, hl, hcovers⟩ | htooLarge
    · rw [haround] at hl
      cases hl
      exact hcovers
    · rcases htooLarge with ⟨axis, h⟩ | ⟨nx, ny, h⟩
      · rw [haround] at h
        cases h
      · rw [haround] at h
        cases h
  · exact (hsampled ⟨1, 3, 2⟩).1 _ haround (by decide) (by decide)

end Isomesh
