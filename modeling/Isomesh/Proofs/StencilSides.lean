import Isomesh.Cube.Stencil
import Isomesh.Vec3
import Mathlib.Algebra.Group.Fin.Basic
import Mathlib.Data.Fintype.Pi
import Mathlib.Data.Nat.Bitwise
import Mathlib.Data.Sym.Sym2

/-!
# The sides of stencil triangles

A stencil has its vertices on cube edges, so a side of one of its triangles runs from one cube edge to
another. Around each face of the cube, seen from outside, the inside corners form runs. A stencil
meets the face in one side for each run: from the edge before the first corner of the run to the edge
after its last. No other side lies on a face, and every side off the faces occurs once in each
direction. This is what makes the stencils of neighbouring cells fit together.

It is checked for the patterns only. Turning the cube keeps it, and every stencil is a turned pattern.

* `Stencil.Fits`: what a stencil has to satisfy.
* `Rotation.Rigid`: a permutation of the corners that takes faces to faces.
* `Stencil.Fits.rotate`: fitting is kept by rotations.
* `CornerMask.stencil_fits`: the stencil of every set of corners fits.
-/

set_option autoImplicit false

namespace Isomesh

/-! ## Edges and faces -/

/-- The corners of an edge, in no order. -/
def CubeEdge.ends (e : CubeEdge) : Sym2 Corner := s(e.a, e.b)

/-- A side of a stencil triangle, from one cube edge to another. -/
abbrev CubeSide := Sym2 Corner × Sym2 Corner

/-- The sides of a triangle, in its direction. -/
def StencilTriangle.sides (t : StencilTriangle) : List CubeSide :=
  [(t.a.ends, t.b.ends), (t.b.ends, t.c.ends), (t.c.ends, t.a.ends)]

/-- The sides of all triangles of a stencil. -/
def Stencil.sides (s : Stencil) : List CubeSide := s.flatMap StencilTriangle.sides

/-- A face of the cube: across an axis, at its lower or its upper end. -/
structure CubeFace where
  axis : Axis
  upper : Bool
  deriving DecidableEq

namespace CubeFace

/-- The places around a face. -/
def places : List (Fin 4) := [0, 1, 2, 3]

theorem mem_places (n : Fin 4) : n ∈ places := by
  revert n
  decide

/-- The faces. -/
def all : List CubeFace := Axis.all.flatMap fun axis => [⟨axis, false⟩, ⟨axis, true⟩]

theorem mem_all (f : CubeFace) : f ∈ all := by
  rcases f with ⟨axis, upper⟩
  cases axis <;> cases upper <;> decide

/-- The corners of a face, going around it as seen from outside. The cycles of opposite faces start at
neighbouring corners and run in opposite directions. -/
def cycle : CubeFace → List Corner
  | ⟨.x, true⟩ => [1, 3, 7, 5]
  | ⟨.y, true⟩ => [2, 6, 7, 3]
  | ⟨.z, true⟩ => [4, 5, 7, 6]
  | ⟨.x, false⟩ => [0, 4, 6, 2]
  | ⟨.y, false⟩ => [0, 1, 5, 4]
  | ⟨.z, false⟩ => [0, 2, 3, 1]

/-- The corner at a place. -/
def corner (f : CubeFace) (n : Fin 4) : Corner := f.cycle.getD n 0

/-- The edge after a place. -/
def edge (f : CubeFace) (n : Fin 4) : Sym2 Corner := s(f.corner n, f.corner (n + 1))

/-- The edges of a face. -/
def edges (f : CubeFace) : List (Sym2 Corner) := places.map f.edge

theorem mem_edges {f : CubeFace} {e : Sym2 Corner} : e ∈ f.edges ↔ ∃ n, f.edge n = e := by
  simp only [edges, List.mem_map, mem_places, true_and]

/-- Whether a side lies on a face. -/
def holds (f : CubeFace) (e : CubeSide) : Bool := f.edges.elem e.1 && f.edges.elem e.2

theorem holds_iff {f : CubeFace} {e : CubeSide} :
    f.holds e = true ↔ ∃ i j, e = (f.edge i, f.edge j) := by
  simp only [holds, List.elem_eq_mem, Bool.and_eq_true, decide_eq_true_eq, mem_edges]
  constructor
  · rintro ⟨⟨i, hi⟩, ⟨j, hj⟩⟩
    exact ⟨i, j, Prod.ext hi.symm hj.symm⟩
  · rintro ⟨i, j, rfl⟩
    exact ⟨⟨i, rfl⟩, ⟨j, rfl⟩⟩

end CubeFace

/-- Whether two corners bound an edge of the cube. -/
def IsCubeEdge (e : Sym2 Corner) : Prop := ∃ f : CubeFace, e ∈ f.edges

/-- Whether the inside corners around a face form a run that begins after edge `i` and ends before edge
`j`: the corner before edge `i` and the one after edge `j` are outside, all between are inside. -/
def isRun (inside : Fin 4 → Bool) (i j : Fin 4) : Bool :=
  inside j && !inside (j + 1) && !inside i && inside (i + 1) &&
    (i == j - 1 || inside (j - 1) && (i == j - 2 || inside (j - 2)))

/-- Runs do not depend on where the count around the face begins. -/
theorem isRun_shift : ∀ (inside : Fin 4 → Bool) (k i j : Fin 4),
    isRun (fun n => inside (n + k)) i j = isRun inside (i + k) (j + k) := by
  decide +kernel

/-- Seen from the other side of the face a run begins where it ended. Edge `n` is then edge `3 - n`. -/
theorem isRun_reflect : ∀ (inside : Fin 4 → Bool) (i j : Fin 4),
    isRun (fun n => inside (-n)) i j = isRun inside (3 - j) (3 - i) := by
  decide +kernel

/-- No run leads back along another. -/
theorem not_isRun_swap : ∀ (inside : Fin 4 → Bool) (i j : Fin 4),
    isRun inside i j = true → isRun inside j i = false := by
  decide +kernel

/-- The inside corners of a face. -/
def CornerMask.around (m : CornerMask) (f : CubeFace) (n : Fin 4) : Bool := m.has (f.corner n)

namespace Stencil

/-- Whether a stencil fits to what it may meet in the neighbouring cells. -/
structure Fits (m : CornerMask) (s : Stencil) : Prop where
  nodup : s.sides.Nodup
  isCubeEdge : ∀ e ∈ s.sides, IsCubeEdge e.1 ∧ IsCubeEdge e.2
  ne : ∀ e ∈ s.sides, e.1 ≠ e.2
  face : ∀ (f : CubeFace) (i j : Fin 4),
    (f.edge i, f.edge j) ∈ s.sides ↔ isRun (m.around f) i j = true
  inner : ∀ e ∈ s.sides, (∃ f : CubeFace, f.holds e = true) ∨ e.swap ∈ s.sides

/-- The test behind `Fits`. -/
def fits (m : CornerMask) (s : Stencil) : Bool :=
  decide s.sides.Nodup &&
  (s.sides.all fun e =>
    CubeFace.all.any (·.edges.elem e.1) && CubeFace.all.any (·.edges.elem e.2) && e.1 != e.2 &&
      (CubeFace.all.any (·.holds e) || s.sides.elem e.swap)) &&
  CubeFace.all.all fun f => CubeFace.places.all fun i => CubeFace.places.all fun j =>
    (s.sides.filter f.holds).elem (f.edge i, f.edge j) == isRun (m.around f) i j

theorem fits_of_fits {m : CornerMask} {s : Stencil} (h : fits m s = true) : Fits m s := by
  simp only [fits, Bool.and_eq_true, decide_eq_true_eq, List.all_eq_true, List.any_eq_true,
    List.elem_eq_mem, Bool.or_eq_true, beq_iff_eq, bne_iff_ne] at h
  obtain ⟨⟨hnodup, hside⟩, hface⟩ := h
  refine ⟨hnodup, fun e he => ?_, fun e he => (hside e he).1.2, fun f i j => ?_, fun e he => ?_⟩
  · obtain ⟨⟨⟨f, -, hf⟩, ⟨g, -, hg⟩⟩, -⟩ := (hside e he).1
    exact ⟨⟨f, hf⟩, ⟨g, hg⟩⟩
  · rw [← hface f (CubeFace.mem_all f) i (CubeFace.mem_places i) j (CubeFace.mem_places j),
      decide_eq_true_eq, List.mem_filter]
    exact (and_iff_left (CubeFace.holds_iff.2 ⟨i, j, rfl⟩)).symm
  · rcases (hside e he).2 with ⟨f, -, hf⟩ | hswap
    · exact .inl ⟨f, hf⟩
    · exact .inr hswap

theorem fits_patterns : (patterns.all fun p => fits (.ofList p.1) p.2) = true := by decide +kernel

end Stencil

/-! ## Rotations keep the fit -/

namespace Rotation

/-- Whether a rotation is a permutation of the corners that takes faces to faces and keeps the
direction of their cycles. -/
structure Rigid (r : Rotation) : Prop where
  length : r.image.length = 8
  injective : Function.Injective r.apply
  turns : ∀ f : CubeFace, ∃ (g : CubeFace) (k : Fin 4), ∀ n, r.apply (f.corner n) = g.corner (n + k)
  reached : ∀ g : CubeFace, ∃ (f : CubeFace) (k : Fin 4), ∀ n, r.apply (f.corner (n + k)) = g.corner n

/-- The test behind `Rigid`. -/
def rigid (r : Rotation) : Bool :=
  r.image.length == 8 && decide r.image.Nodup &&
  (CubeFace.all.all fun f => CubeFace.all.any fun g => CubeFace.places.any fun k =>
    CubeFace.places.all fun n => r.apply (f.corner n) == g.corner (n + k)) &&
  CubeFace.all.all fun g => CubeFace.all.any fun f => CubeFace.places.any fun k =>
    CubeFace.places.all fun n => r.apply (f.corner (n + k)) == g.corner n

theorem rigid_of_rigid {r : Rotation} (h : r.rigid = true) : r.Rigid := by
  simp only [rigid, Bool.and_eq_true, beq_iff_eq, decide_eq_true_eq, List.all_eq_true,
    List.any_eq_true] at h
  obtain ⟨⟨⟨hlength, hnodup⟩, honto⟩, hfrom⟩ := h
  refine ⟨hlength, fun c d hcd => ?_, fun f => ?_, fun g => ?_⟩
  · have hc : c.val < r.image.length := by omega
    have hd : d.val < r.image.length := by omega
    rw [apply, apply, List.getD_eq_getElem _ _ hc, List.getD_eq_getElem _ _ hd] at hcd
    exact Fin.ext ((List.Nodup.getElem_inj_iff hnodup).1 hcd)
  · obtain ⟨g, -, k, -, hn⟩ := honto f (CubeFace.mem_all f)
    exact ⟨g, k, fun n => hn n (CubeFace.mem_places n)⟩
  · obtain ⟨f, -, k, -, hn⟩ := hfrom g (CubeFace.mem_all g)
    exact ⟨f, k, fun n => hn n (CubeFace.mem_places n)⟩

theorem rigid_identity : identity.Rigid := rigid_of_rigid (by decide +kernel)

theorem rigid_aboutZ : aboutZ.Rigid := rigid_of_rigid (by decide +kernel)

theorem rigid_aboutX : aboutX.Rigid := rigid_of_rigid (by decide +kernel)

theorem apply_compose {outer inner : Rotation} (h : inner.image.length = 8) (c : Corner) :
    (compose outer inner).apply c = outer.apply (inner.apply c) := by
  have hc : c.val < inner.image.length := by omega
  have hc' : c.val < (inner.image.map outer.apply).length := by rw [List.length_map]; exact hc
  rw [apply, compose, List.getD_eq_getElem _ _ hc', List.getElem_map, apply.eq_def inner,
    List.getD_eq_getElem _ _ hc]

theorem Rigid.compose {outer inner : Rotation} (ho : outer.Rigid) (hi : inner.Rigid) :
    (outer.compose inner).Rigid where
  length := (List.length_map _).trans hi.length
  injective c d hcd := by
    rw [apply_compose hi.length, apply_compose hi.length] at hcd
    exact hi.injective (ho.injective hcd)
  turns f := by
    obtain ⟨g, k, hg⟩ := hi.turns f
    obtain ⟨h, l, hh⟩ := ho.turns g
    refine ⟨h, k + l, fun n => ?_⟩
    rw [apply_compose hi.length, hg, hh, add_assoc]
  reached h := by
    obtain ⟨g, l, hg⟩ := ho.reached h
    obtain ⟨f, k, hf⟩ := hi.reached g
    refine ⟨f, l + k, fun n => ?_⟩
    rw [apply_compose hi.length, ← add_assoc, hf, hg]

theorem mem_enter {r s : Rotation} {rs : List Rotation} : r ∈ enter s rs ↔ r = s ∨ r ∈ rs := by
  fun_induction enter s rs with
  | case1 => simp only [List.mem_singleton, List.not_mem_nil, or_false]
  | case2 => rw [List.mem_cons]
  | case3 =>
    rw [List.mem_cons]
    tauto
  | case4 t rest _ _ ih =>
    rw [List.mem_cons, ih, List.mem_cons]
    tauto

section Turns

variable {P : Rotation → Prop} (hz : ∀ r, P r → P (aboutZ.compose r))
  (hx : ∀ r, P r → P (aboutX.compose r))

include hz hx

/-- What holds of some rotations and is kept by quarter turns holds of all that one round enters. -/
theorem foldl_enter_induction {qs acc : List Rotation} (hqs : ∀ r ∈ qs, P r) (hacc : ∀ r ∈ acc, P r) :
    ∀ r ∈ qs.foldl (fun acc r => enter (aboutX.compose r) (enter (aboutZ.compose r) acc)) acc,
      P r := by
  induction qs generalizing acc with
  | nil => exact hacc
  | cons q qs ih =>
    obtain ⟨hq, hqs⟩ := List.forall_mem_cons.1 hqs
    refine ih hqs fun r hr => ?_
    rcases mem_enter.1 hr with rfl | hr
    · exact hx q hq
    · rcases mem_enter.1 hr with rfl | hr
      · exact hz q hq
      · exact hacc r hr

/-- And so it does of all that any number of rounds reach. -/
theorem closure_induction (turns : Nat) {rs : List Rotation} (h : ∀ r ∈ rs, P r) :
    ∀ r ∈ closure turns rs, P r := by
  induction turns generalizing rs with
  | zero => exact h
  | succ turns ih => exact ih (foldl_enter_induction hz hx h h)

end Turns

theorem rigid_of_mem_rotations : ∀ r ∈ rotations, r.Rigid :=
  closure_induction (fun _ hr => rigid_aboutZ.compose hr) (fun _ hr => rigid_aboutX.compose hr) 8
    fun _ hr => List.mem_singleton.1 hr ▸ rigid_identity

/-- A rotated set has the places where its corners went. -/
theorem Rigid.has_applyMask {r : Rotation} (hr : r.Rigid) (m : CornerMask) (c : Corner) :
    (r.applyMask m).has (r.apply c) = m.has c := by
  rw [applyMask, CornerMask.has_ofList, Bool.eq_iff_iff, List.contains_iff_mem,
    List.mem_map_of_injective hr.injective, CornerMask.toList, List.mem_filter]
  exact and_iff_right (Corner.mem_all c)

/-- The side between the places where its edges go. -/
def turnSide (r : Rotation) (e : CubeSide) : CubeSide := (e.1.map r.apply, e.2.map r.apply)

theorem Rigid.turnSide_injective {r : Rotation} (hr : r.Rigid) : Function.Injective r.turnSide := by
  rintro ⟨a, b⟩ ⟨c, d⟩ h
  obtain ⟨h1, h2⟩ := Prod.mk.injEq .. ▸ h
  exact Prod.ext (Sym2.map.injective hr.injective h1) (Sym2.map.injective hr.injective h2)

/-- Where the corners of one face go to those of another, so do the edges. -/
theorem edge_of_corner {r : Rotation} {f g : CubeFace} {k : Fin 4}
    (h : ∀ n, r.apply (f.corner n) = g.corner (n + k)) (n : Fin 4) :
    (f.edge n).map r.apply = g.edge (n + k) := by
  rw [CubeFace.edge, CubeFace.edge, Sym2.map_mk, h, h, add_right_comm]

theorem sides_rotate (r : Rotation) (s : Stencil) :
    Stencil.sides (s.map (·.rotate r)) = s.sides.map r.turnSide := by
  rw [Stencil.sides, Stencil.sides, List.flatMap_map, List.map_flatMap]
  rfl

end Rotation

namespace Stencil

open Rotation

theorem Fits.rotate {r : Rotation} (hr : r.Rigid) {m : CornerMask} {s : Stencil} (h : s.Fits m) :
    Fits (r.applyMask m) (s.map (·.rotate r)) where
  nodup := by
    rw [sides_rotate]
    exact h.nodup.map hr.turnSide_injective
  isCubeEdge := by
    have turned {e : Sym2 Corner} (he : IsCubeEdge e) : IsCubeEdge (e.map r.apply) := by
      obtain ⟨f, hf⟩ := he
      obtain ⟨n, rfl⟩ := CubeFace.mem_edges.1 hf
      obtain ⟨g, k, hg⟩ := hr.turns f
      exact ⟨g, CubeFace.mem_edges.2 ⟨n + k, (edge_of_corner hg n).symm⟩⟩
    rw [sides_rotate, List.forall_mem_map]
    exact fun e he => ⟨turned (h.isCubeEdge e he).1, turned (h.isCubeEdge e he).2⟩
  ne := by
    rw [sides_rotate, List.forall_mem_map]
    exact fun e he heq => h.ne e he (Sym2.map.injective hr.injective heq)
  face g i j := by
    obtain ⟨f, k, hf⟩ := hr.reached g
    have around (n : Fin 4) : (r.applyMask m).around g n = m.around f (n + k) := by
      rw [CornerMask.around, ← hf, hr.has_applyMask, CornerMask.around]
    have edge (n : Fin 4) : g.edge n = (f.edge (n + k)).map r.apply := by
      rw [CubeFace.edge, CubeFace.edge, Sym2.map_mk, ← hf, ← hf, add_right_comm]
    have side : (g.edge i, g.edge j) = r.turnSide (f.edge (i + k), f.edge (j + k)) := by
      rw [edge, edge, turnSide]
    rw [sides_rotate, side, List.mem_map_of_injective hr.turnSide_injective, h.face,
      show (r.applyMask m).around g = fun n => m.around f (n + k) from funext around, isRun_shift]
  inner := by
    rw [sides_rotate, List.forall_mem_map]
    intro e he
    rcases h.inner e he with ⟨f, hf⟩ | hswap
    · obtain ⟨i, j, rfl⟩ := CubeFace.holds_iff.1 hf
      obtain ⟨g, k, hg⟩ := hr.turns f
      refine .inl ⟨g, CubeFace.holds_iff.2 ⟨i + k, j + k, ?_⟩⟩
      rw [turnSide, edge_of_corner hg, edge_of_corner hg]
    · exact .inr (List.mem_map.2 ⟨e.swap, hswap, rfl⟩)

/-- Every pattern fits in every position. -/
theorem fits_positions : ∀ p ∈ positions, Fits p.1 p.2 := by
  intro p hp
  simp only [positions, List.mem_flatMap, List.mem_map] at hp
  obtain ⟨⟨corners, stencil⟩, hpattern, r, hr, rfl⟩ := hp
  have hfits := List.all_eq_true.1 fits_patterns _ hpattern
  exact (fits_of_fits hfits).rotate (rigid_of_mem_rotations r hr)

/-! ## All sets of corners -/

/-- The sets of corners of all positions, one bit for each. -/
def covered : Nat := positions.foldl (fun n p => n ||| 2 ^ p.1.toNat) 0

theorem covered_eq : covered = 2 ^ 2 ^ 8 - 1 := by decide +kernel

/-- A bit of the number of some positions is that of one of them. -/
theorem of_testBit_foldl {ps : List (CornerMask × Stencil)} {n k : Nat}
    (h : (ps.foldl (fun n p => n ||| 2 ^ p.1.toNat) n).testBit k = true) :
    n.testBit k = true ∨ ∃ p ∈ ps, p.1.toNat = k := by
  induction ps generalizing n with
  | nil => exact .inl h
  | cons p ps ih =>
    rcases ih h with hn | ⟨q, hq, hk⟩
    · rw [Nat.testBit_or, Bool.or_eq_true, Nat.testBit_two_pow, decide_eq_true_eq] at hn
      exact hn.imp_right fun hk => ⟨p, List.mem_cons_self, hk⟩
    · exact .inr ⟨q, List.mem_cons_of_mem _ hq, hk⟩

theorem testBit_covered {k : Nat} (h : covered.testBit k = true) :
    ∃ p ∈ positions, p.1.toNat = k := by
  rcases of_testBit_foldl h with h0 | hp
  · rw [Nat.zero_testBit] at h0
    cases h0
  · exact hp

/-- Every set of corners is that of some position, and its stencil comes from there. -/
theorem find_mem_positions (m : CornerMask) : (m, find m) ∈ positions := by
  have hbit : covered.testBit m.toNat = true := by
    rw [covered_eq, Nat.testBit_two_pow_sub_one, decide_eq_true_eq]
    exact m.isLt
  obtain ⟨p, hp, hpm⟩ := testBit_covered hbit
  have hsome : (positions.find? fun entry => entry.1 = m).isSome := by
    rw [List.find?_isSome]
    exact ⟨p, hp, decide_eq_true (BitVec.eq_of_toNat_eq hpm)⟩
  obtain ⟨⟨n, s⟩, hq⟩ := Option.isSome_iff_exists.1 hsome
  have hn := List.find?_some hq
  obtain rfl : n = m := of_decide_eq_true hn
  rw [find, hq]
  exact List.mem_of_find?_eq_some hq

end Stencil

/-- The stencil of every set of corners fits to whatever it may meet. -/
theorem CornerMask.stencil_fits (m : CornerMask) : m.stencil.Fits m := by
  rw [CornerMask.stencil_eq_find]
  exact Stencil.fits_positions _ (Stencil.find_mem_positions m)

end Isomesh
