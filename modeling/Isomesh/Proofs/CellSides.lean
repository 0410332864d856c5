import Mathlib
import Isomesh.Proofs.DirectSampling
import Isomesh.Proofs.StencilSides

/-!
# Sides of neighbouring cells

All cells of a lattice together, with their vertices named by whole numbers: the middle of a lattice
edge has twice the coordinates of its place among the lattice points. Two cells share a side only if
they share a face that holds it, and there one cell has the side in one direction and the other cell
in the other. So no side occurs twice, and with each side the reverse occurs too.

* `Cell.eq_or_across`: which cells share a side.
* `Lattice.nodup_halfSides`, `Lattice.swap_mem_halfSides`: the main results.
-/

set_option autoImplicit false

namespace Isomesh

/-! ## Coordinates -/

/-- The position of a corner along an axis. -/
def Corner.along (c : Corner) : Axis → Nat
  | .x => c.x
  | .y => c.y
  | .z => c.z

/-- The position of the middle of an edge along an axis, in halves. -/
def edgeAlong (axis : Axis) : Sym2 Corner → Nat :=
  Sym2.lift ⟨fun p q => p.along axis + q.along axis, fun _ _ => Nat.add_comm _ _⟩

namespace CubeFace

/-- The face across the same axis at the other end. -/
def opposite (f : CubeFace) : CubeFace := ⟨f.axis, !f.upper⟩

theorem edgeAlong_edge (f : CubeFace) (n : Fin 4) (axis : Axis) :
    edgeAlong axis (f.edge n) = (f.corner n).along axis + (f.corner (n + 1)).along axis :=
  rfl

theorem edgeAlong_le (f : CubeFace) (n : Fin 4) (axis : Axis) : edgeAlong axis (f.edge n) ≤ 2 := by
  rcases f with ⟨a, upper⟩
  cases a <;> cases upper <;> cases axis <;> revert n <;> decide

/-- The middle of an edge is between two lattice points along one axis only. -/
theorem edgeAlong_eq_one (f : CubeFace) (n : Fin 4) :
    ∃ axis, edgeAlong axis (f.edge n) = 1 ∧ ∀ a ≠ axis, edgeAlong a (f.edge n) ≠ 1 := by
  have hlisted : ∃ axis ∈ Axis.all, edgeAlong axis (f.edge n) = 1 ∧
      ∀ a ∈ Axis.all, a ≠ axis → edgeAlong a (f.edge n) ≠ 1 := by
    rcases f with ⟨a, upper⟩
    cases a <;> cases upper <;> revert n <;> decide
  obtain ⟨axis, -, hone, hother⟩ := hlisted
  exact ⟨axis, hone, fun a ha => hother a (Axis.mem_all a) ha⟩

/-- An edge at one end of the cube along an axis is an edge of the face there. -/
theorem mem_edges_of_edgeAlong (f : CubeFace) (n : Fin 4) (axis : Axis) :
    (edgeAlong axis (f.edge n) = 0 → f.edge n ∈ edges ⟨axis, false⟩) ∧
      (edgeAlong axis (f.edge n) = 2 → f.edge n ∈ edges ⟨axis, true⟩) := by
  rcases f with ⟨a, upper⟩
  cases a <;> cases upper <;> cases axis <;> revert n <;> decide

theorem along_corner (f : CubeFace) (n : Fin 4) :
    (f.corner n).along f.axis = if f.upper then 1 else 0 := by
  rcases f with ⟨a, upper⟩
  cases a <;> cases upper <;> revert n <;> decide

/-- Seen from the neighbouring cell a corner of the face is at the other end. -/
theorem along_opposite (f : CubeFace) (n : Fin 4) (axis : Axis) :
    (f.corner (-n)).along axis + (if axis = f.axis ∧ f.upper = false then 1 else 0) =
      (f.opposite.corner n).along axis + if axis = f.axis ∧ f.upper = true then 1 else 0 := by
  rcases f with ⟨a, upper⟩
  cases a <;> cases upper <;> cases axis <;> revert n <;> decide

end CubeFace

/-- Edges of faces with the same middle are the same. By trying all. -/
theorem CubeFace.edge_eq_of_edgeAlong :
    ∀ f ∈ CubeFace.all, ∀ n ∈ CubeFace.places, ∀ g ∈ CubeFace.all, ∀ k ∈ CubeFace.places,
      (∀ axis ∈ Axis.all, edgeAlong axis (f.edge n) = edgeAlong axis (g.edge k)) →
        f.edge n = g.edge k := by
  decide +kernel

theorem IsCubeEdge.eq_of_edgeAlong {p q : Sym2 Corner} (hp : IsCubeEdge p) (hq : IsCubeEdge q)
    (h : ∀ axis, edgeAlong axis p = edgeAlong axis q) : p = q := by
  obtain ⟨f, hf⟩ := hp
  obtain ⟨g, hg⟩ := hq
  obtain ⟨n, rfl⟩ := CubeFace.mem_edges.1 hf
  obtain ⟨k, rfl⟩ := CubeFace.mem_edges.1 hg
  exact CubeFace.edge_eq_of_edgeAlong f (CubeFace.mem_all f) n (CubeFace.mem_places n) g
    (CubeFace.mem_all g) k (CubeFace.mem_places k) fun axis _ => h axis

theorem IsCubeEdge.edgeAlong_le {p : Sym2 Corner} (hp : IsCubeEdge p) (axis : Axis) :
    edgeAlong axis p ≤ 2 := by
  obtain ⟨f, hf⟩ := hp
  obtain ⟨n, rfl⟩ := CubeFace.mem_edges.1 hf
  exact f.edgeAlong_le n axis

theorem IsCubeEdge.eq_of_two_axes {p q : Sym2 Corner} (hp : IsCubeEdge p) (hq : IsCubeEdge q)
    {a b : Axis} (hab : a ≠ b) (ha : edgeAlong a p = edgeAlong a q) (ha' : edgeAlong a p ≠ 1)
    (hb : edgeAlong b p = edgeAlong b q) (hb' : edgeAlong b p ≠ 1) : p = q := by
  obtain ⟨f, hf⟩ := id hp
  obtain ⟨g, hg⟩ := id hq
  obtain ⟨n, rfl⟩ := CubeFace.mem_edges.1 hf
  obtain ⟨k, rfl⟩ := CubeFace.mem_edges.1 hg
  obtain ⟨c, hc, -⟩ := f.edgeAlong_eq_one n
  obtain ⟨d, hd, -⟩ := g.edgeAlong_eq_one k
  have hca : c ≠ a := fun h => ha' (h ▸ hc)
  have hcb : c ≠ b := fun h => hb' (h ▸ hc)
  have hda : d ≠ a := fun h => ha' (ha.trans (h ▸ hd))
  have hdb : d ≠ b := fun h => hb' (hb.trans (h ▸ hd))
  -- the third axis is the one along which both middles are between two lattice points
  have hcd : c = d := by cases a <;> cases b <;> cases c <;> cases d <;> simp_all
  refine hp.eq_of_edgeAlong hq fun axis => ?_
  have hax : axis = a ∨ axis = b ∨ axis = c := by
    cases a <;> cases b <;> cases c <;> cases axis <;> simp_all
  rcases hax with rfl | rfl | rfl
  · exact ha
  · exact hb
  · rw [hc, hcd, hd]

/-! ## Cells -/

/-- A cell, by the numbers of its lowest corner. -/
abbrev Cell := Nat × Nat × Nat

namespace Cell

/-- The number of the lowest corner along an axis. -/
def along (c : Cell) : Axis → Nat
  | .x => c.1
  | .y => c.2.1
  | .z => c.2.2

theorem ext {c d : Cell} (h : ∀ axis, c.along axis = d.along axis) : c = d :=
  Prod.ext (h .x) (Prod.ext (h .y) (h .z))

/-- The cell with the given numbers. -/
def ofFn (f : Axis → Nat) : Cell := (f .x, f .y, f .z)

@[simp] theorem along_ofFn (f : Axis → Nat) (axis : Axis) : (ofFn f).along axis = f axis := by
  cases axis <;> rfl

/-- The middle of an edge of a cell, in halves of the lattice distance. -/
def half (c : Cell) (e : Sym2 Corner) : Vec3 Nat :=
  .ofFn fun axis => 2 * c.along axis + edgeAlong axis e

theorem half_eq_iff {c d : Cell} {p q : Sym2 Corner} :
    c.half p = d.half q ↔
      ∀ axis, 2 * c.along axis + edgeAlong axis p = 2 * d.along axis + edgeAlong axis q := by
  constructor
  · intro h axis
    have := congrArg (Vec3.get · axis) h
    simpa only [half, Vec3.get_ofFn] using this
  · intro h
    refine Vec3.ext_get fun axis => ?_
    rw [half, half, Vec3.get_ofFn, Vec3.get_ofFn, h axis]

theorem half_injective {c : Cell} {p q : Sym2 Corner} (hp : IsCubeEdge p) (hq : IsCubeEdge q)
    (h : c.half p = c.half q) : p = q :=
  hp.eq_of_edgeAlong hq fun axis => Nat.add_left_cancel (half_eq_iff.1 h axis)

/-- Whether `d` is the cell on the other side of a face of `c`. -/
def Across (f : CubeFace) (c d : Cell) : Prop :=
  ∀ axis, c.along axis + (if axis = f.axis ∧ f.upper = true then 1 else 0) =
    d.along axis + if axis = f.axis ∧ f.upper = false then 1 else 0

/-- Along an axis where two cells differ, a side that they share is at the end between them. -/
theorem end_of_along_ne {c d : Cell} {p q p' q' : Sym2 Corner} (hp : IsCubeEdge p)
    (hq : IsCubeEdge q) (hp' : IsCubeEdge p') (hq' : IsCubeEdge q') (h : c.half p = d.half p')
    (h' : c.half q = d.half q') {a : Axis} (ha : c.along a ≠ d.along a) :
    edgeAlong a p = edgeAlong a q ∧ edgeAlong a p ≠ 1 ∧
      (c.along a + 1 = d.along a ∧ edgeAlong a p = 2 ∨
        c.along a = d.along a + 1 ∧ edgeAlong a p = 0) := by
  rw [half_eq_iff] at h h'
  have h1 := h a
  have h2 := h' a
  have := hp.edgeAlong_le a
  have := hq.edgeAlong_le a
  have := hp'.edgeAlong_le a
  have := hq'.edgeAlong_le a
  omega

/-- Cells that share a side are the same or have a face in common that holds it. -/
theorem eq_or_across {c d : Cell} {p q p' q' : Sym2 Corner} (hp : IsCubeEdge p)
    (hq : IsCubeEdge q) (hp' : IsCubeEdge p') (hq' : IsCubeEdge q') (hpq : p ≠ q)
    (h : c.half p = d.half p') (h' : c.half q = d.half q') :
    c = d ∨ ∃ f : CubeFace, f.holds (p, q) = true ∧ Across f c d := by
  by_cases hcd : c = d
  · exact .inl hcd
  · right
    obtain ⟨a, ha⟩ : ∃ a, c.along a ≠ d.along a := by
      by_contra hall
      exact hcd (ext fun axis => by_contra fun hne => hall ⟨axis, hne⟩)
    obtain ⟨heq, hone, hside⟩ := end_of_along_ne hp hq hp' hq' h h' ha
    have others (b : Axis) (hb : b ≠ a) : c.along b = d.along b := by
      by_contra hne
      obtain ⟨heq', hone', -⟩ := end_of_along_ne hp hq hp' hq' h h' hne
      exact hpq (hp.eq_of_two_axes hq hb.symm heq hone heq' hone')
    obtain ⟨f, hf⟩ := hp
    obtain ⟨g, hg⟩ := hq
    obtain ⟨n, rfl⟩ := CubeFace.mem_edges.1 hf
    obtain ⟨k, rfl⟩ := CubeFace.mem_edges.1 hg
    have across (upper : Bool) (hu : c.along a + (if upper = true then 1 else 0) =
        d.along a + if upper = false then 1 else 0) : Across ⟨a, upper⟩ c d := by
      intro b
      by_cases hb : b = a
      · subst hb
        simpa using hu
      · simpa [hb] using others b hb
    rcases hside with ⟨hc, hend⟩ | ⟨hc, hend⟩
    · refine ⟨⟨a, true⟩, ?_, across true (by simpa using hc)⟩
      rw [CubeFace.holds, Bool.and_eq_true, List.elem_iff, List.elem_iff]
      exact ⟨(f.mem_edges_of_edgeAlong n a).2 hend,
        (g.mem_edges_of_edgeAlong k a).2 (heq.symm.trans hend)⟩
    · refine ⟨⟨a, false⟩, ?_, across false (by simpa using hc)⟩
      rw [CubeFace.holds, Bool.and_eq_true, List.elem_iff, List.elem_iff]
      exact ⟨(f.mem_edges_of_edgeAlong n a).1 hend,
        (g.mem_edges_of_edgeAlong k a).1 (heq.symm.trans hend)⟩

theorem Across.half_edge {f : CubeFace} {c d : Cell} (h : Across f c d) (n : Fin 4) :
    c.half (f.edge n) = d.half (f.opposite.edge (3 - n)) := by
  rw [half_eq_iff]
  intro axis
  have h1 := f.along_opposite (3 - n) axis
  have h2 := f.along_opposite (3 - n + 1) axis
  have h3 := h axis
  rw [show ∀ n : Fin 4, -(3 - n) = n + 1 by decide] at h1
  rw [show ∀ n : Fin 4, -(3 - n + 1) = n by decide] at h2
  rw [CubeFace.edgeAlong_edge, CubeFace.edgeAlong_edge]
  omega

end Cell

/-! ## The sides of all cells -/

namespace Lattice

variable {K : Type} {l : Lattice K} {solid : Solid K} {c d : Cell}

/-- The number of points along an axis. -/
def count (l : Lattice K) : Axis → Nat
  | .x => l.nx
  | .y => l.ny
  | .z => l.nz

theorem mem_cells : c ∈ l.cells ↔ ∀ axis, c.along axis + 1 < l.count axis := by
  obtain ⟨i, j, k⟩ := c
  simp only [cells, List.mem_flatMap, List.mem_map, List.mem_range, Prod.mk.injEq]
  constructor
  · rintro ⟨k, hk, j, hj, i, hi, rfl, rfl, rfl⟩ axis
    cases axis <;> simp only [Cell.along, count] <;> omega
  · intro h
    have hx := h .x
    have hy := h .y
    have hz := h .z
    simp only [Cell.along, count] at hx hy hz
    exact ⟨k, by omega, j, by omega, i, by omega, rfl, rfl, rfl⟩

theorem nodup_cells (l : Lattice K) : l.cells.Nodup := by
  rw [cells, List.nodup_flatMap]
  constructor
  · intro k _
    rw [List.nodup_flatMap]
    constructor
    · intro j _
      refine List.nodup_range.map fun i i' h => ?_
      exact congrArg Prod.fst h
    · refine List.nodup_range.imp fun {j j'} hne => ?_
      simp only [Function.onFun, List.disjoint_left, List.mem_map, List.mem_range]
      rintro _ ⟨i, _, rfl⟩ ⟨i', _, h⟩
      exact hne (congrArg (·.2.1) h).symm
  · refine List.nodup_range.imp fun {k k'} hne => ?_
    simp only [Function.onFun, List.disjoint_left, List.mem_flatMap, List.mem_map, List.mem_range]
    rintro _ ⟨j, _, i, _, rfl⟩ ⟨j', _, i', _, h⟩
    exact hne (congrArg (·.2.2) h).symm

variable [Scalar K]

/-- The inside corners of a cell. -/
def maskOf (l : Lattice K) (solid : Solid K) (c : Cell) : CornerMask :=
  l.directMask solid c.1 c.2.1 c.2.2

theorem has_maskOf_congr {p q : Corner}
    (h : ∀ axis, c.along axis + p.along axis = d.along axis + q.along axis) :
    (l.maskOf solid c).has p = (l.maskOf solid d).has q := by
  have hx : c.1 + p.x = d.1 + q.x := h .x
  have hy : c.2.1 + p.y = d.2.1 + q.y := h .y
  have hz : c.2.2 + p.z = d.2.2 + q.z := h .z
  rw [maskOf, maskOf, has_directMask, has_directMask, cellCorner, cellCorner, hx, hy, hz]

/-- Two cells see the same inside corners around their common face, in opposite directions. -/
theorem around_opposite {f : CubeFace} (h : Cell.Across f c d) (n : Fin 4) :
    (l.maskOf solid d).around f.opposite n = (l.maskOf solid c).around f (-n) := by
  refine has_maskOf_congr fun axis => ?_
  have h1 := f.along_opposite n axis
  have h2 := h axis
  omega

/-- A run around a common face leads the other way in the other cell. -/
theorem isRun_opposite {f : CubeFace} (h : Cell.Across f c d) (i j : Fin 4) :
    isRun ((l.maskOf solid d).around f.opposite) (3 - j) (3 - i) =
      isRun ((l.maskOf solid c).around f) i j := by
  rw [show (l.maskOf solid d).around f.opposite = fun n => (l.maskOf solid c).around f (-n) from
    funext (around_opposite h), isRun_reflect, show ∀ n : Fin 4, 3 - (3 - n) = n by decide,
    show ∀ n : Fin 4, 3 - (3 - n) = n by decide]

/-- The sides of the surface in a cell. -/
def cellHalfSides (l : Lattice K) (solid : Solid K) (c : Cell) : List (Vec3 Nat × Vec3 Nat) :=
  (l.maskOf solid c).stencil.sides.map fun e => (c.half e.1, c.half e.2)

/-- The sides of the surface in all cells. -/
def halfSides (l : Lattice K) (solid : Solid K) : List (Vec3 Nat × Vec3 Nat) :=
  l.cells.flatMap (l.cellHalfSides solid)

theorem nodup_cellHalfSides (l : Lattice K) (solid : Solid K) (c : Cell) :
    (l.cellHalfSides solid c).Nodup := by
  have hfits := (l.maskOf solid c).stencil_fits
  refine List.Nodup.map_on (fun e he e' he' h => ?_) hfits.nodup
  obtain ⟨h1, h2⟩ := Prod.mk.injEq .. ▸ h
  obtain ⟨he1, he2⟩ := hfits.isCubeEdge e he
  obtain ⟨he1', he2'⟩ := hfits.isCubeEdge e' he'
  exact Prod.ext (Cell.half_injective he1 he1' h1) (Cell.half_injective he2 he2' h2)

/-- Different cells have no side in common: on a common face their sides run in opposite directions. -/
theorem disjoint_cellHalfSides (hcd : c ≠ d) :
    (l.cellHalfSides solid c).Disjoint (l.cellHalfSides solid d) := by
  rw [List.disjoint_left]
  intro side hc hd
  obtain ⟨⟨p, q⟩, he, rfl⟩ := List.mem_map.1 hc
  obtain ⟨⟨p', q'⟩, he', h⟩ := List.mem_map.1 hd
  obtain ⟨h1, h2⟩ := Prod.mk.injEq .. ▸ h
  have hfits := (l.maskOf solid c).stencil_fits
  have hfits' := (l.maskOf solid d).stencil_fits
  obtain ⟨hp, hq⟩ := hfits.isCubeEdge _ he
  obtain ⟨hp', hq'⟩ := hfits'.isCubeEdge _ he'
  rcases Cell.eq_or_across hp hq hp' hq' (hfits.ne _ he) h1.symm h2.symm with heq | ⟨f, hf, hac⟩
  · exact hcd heq
  · obtain ⟨i, j, hij⟩ := CubeFace.holds_iff.1 hf
    obtain ⟨rfl, rfl⟩ := Prod.mk.injEq .. ▸ hij
    have opposite (n : Fin 4) : IsCubeEdge (f.opposite.edge (3 - n)) :=
      ⟨f.opposite, CubeFace.mem_edges.2 ⟨_, rfl⟩⟩
    obtain rfl := Cell.half_injective hp' (opposite i) (h1.trans (hac.half_edge i))
    obtain rfl := Cell.half_injective hq' (opposite j) (h2.trans (hac.half_edge j))
    have hrun := (hfits.face f i j).1 he
    have hback := (hfits'.face f.opposite (3 - i) (3 - j)).1 he'
    rw [isRun_opposite hac j i, not_isRun_swap _ i j hrun] at hback
    cases hback

/-- **No side occurs twice.** -/
theorem nodup_halfSides (l : Lattice K) (solid : Solid K) : (l.halfSides solid).Nodup := by
  rw [halfSides, List.nodup_flatMap]
  exact ⟨fun c _ => l.nodup_cellHalfSides solid c,
    l.nodup_cells.imp fun hcd => disjoint_cellHalfSides hcd⟩

/-- An inside corner of a cell is off the border if no border point belongs to the solid. -/
theorem inner_of_has (hclean : ∀ k < l.nz, ¬l.HasStray solid k) (hc : c ∈ l.cells) {p : Corner}
    (hp : (l.maskOf solid c).has p = true) (axis : Axis) :
    0 < c.along axis + p.along axis ∧ c.along axis + p.along axis + 1 < l.count axis := by
  have hin : ∀ a, c.along a + p.along a < l.count a := by
    intro a
    have h1 := mem_cells.1 hc a
    have h2 : p.along a ≤ 1 := by
      cases a <;> simp only [Corner.along, Corner.x, Corner.y, Corner.z] <;> omega
    omega
  rw [maskOf, has_directMask] at hp
  have hborder : l.isBorder (c.1 + p.x) (c.2.1 + p.y) (c.2.2 + p.z) = false := by
    by_contra hb
    exact hclean _ (hin .z) ⟨_, _, hin .x, hin .y, Bool.eq_true_of_not_eq_false hb, hp⟩
  simp only [isBorder, Bool.or_eq_false_iff, decide_eq_false_iff_not] at hborder
  have := hin axis
  cases axis <;> simp only [Cell.along, Corner.along, count] at this ⊢ <;> omega

/-- Where a run of inside corners meets a face there is a cell on the other side. -/
theorem exists_across (hclean : ∀ k < l.nz, ¬l.HasStray solid k) (hc : c ∈ l.cells) {f : CubeFace}
    {n : Fin 4} (hn : (l.maskOf solid c).around f n = true) :
    ∃ d ∈ l.cells, Cell.Across f c d := by
  have hinner := inner_of_has hclean hc hn
  have hcorner := f.along_corner n
  refine ⟨Cell.ofFn fun axis => c.along axis + (if axis = f.axis ∧ f.upper = true then 1 else 0) -
    if axis = f.axis ∧ f.upper = false then 1 else 0, mem_cells.2 fun axis => ?_, fun axis => ?_⟩
  · have h1 := mem_cells.1 hc axis
    have h2 := hinner f.axis
    rw [Cell.along_ofFn]
    by_cases ha : axis = f.axis
    · subst ha
      cases hu : f.upper <;> simp [hu] at hcorner ⊢ <;> omega
    · simp only [ha, false_and, if_false]
      omega
  · have h2 := hinner f.axis
    rw [Cell.along_ofFn]
    by_cases ha : axis = f.axis
    · subst ha
      cases hu : f.upper with
      | false =>
        simp [hu] at hcorner ⊢
        omega
      | true => simp
    · simp [ha]

/-- **With each side the reverse occurs.** A side inside a cell is reversed there; one on a face is
reversed in the cell on the other side. -/
theorem swap_mem_halfSides (hclean : ∀ k < l.nz, ¬l.HasStray solid k)
    {side : Vec3 Nat × Vec3 Nat} (h : side ∈ l.halfSides solid) :
    side.swap ∈ l.halfSides solid := by
  obtain ⟨c, hc, hside⟩ := List.mem_flatMap.1 h
  obtain ⟨e, he, rfl⟩ := List.mem_map.1 hside
  have hfits := (l.maskOf solid c).stencil_fits
  rcases hfits.inner e he with ⟨f, hf⟩ | hswap
  · obtain ⟨i, j, rfl⟩ := CubeFace.holds_iff.1 hf
    have hrun := (hfits.face f i j).1 he
    have hj : (l.maskOf solid c).around f j = true := by
      simp only [isRun, Bool.and_eq_true] at hrun
      exact hrun.1.1.1.1
    obtain ⟨d, hd, hac⟩ := exists_across hclean hc hj
    rw [← isRun_opposite hac] at hrun
    have hback := ((l.maskOf solid d).stencil_fits.face f.opposite (3 - j) (3 - i)).2 hrun
    refine List.mem_flatMap.2 ⟨d, hd, List.mem_map.2 ⟨_, hback, ?_⟩⟩
    rw [← hac.half_edge, ← hac.half_edge, Prod.swap]
  · exact List.mem_flatMap.2 ⟨c, hc, List.mem_map.2 ⟨e.swap, hswap, rfl⟩⟩

theorem ne_of_mem_halfSides {side : Vec3 Nat × Vec3 Nat} (h : side ∈ l.halfSides solid) :
    side.1 ≠ side.2 := by
  obtain ⟨c, _, hside⟩ := List.mem_flatMap.1 h
  obtain ⟨e, he, rfl⟩ := List.mem_map.1 hside
  have hfits := (l.maskOf solid c).stencil_fits
  obtain ⟨hp, hq⟩ := hfits.isCubeEdge e he
  exact fun heq => hfits.ne e he (Cell.half_injective hp hq heq)

end Lattice

end Isomesh
