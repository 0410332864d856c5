import Mathlib
import Isomesh.Proofs.ClosedSurface
import Isomesh.Proofs.MeshIndex
import Isomesh.Proofs.StencilNormals
import Isomesh.Proofs.TreeBounds

/-!
# The normals of the sampled surface face outward

A vertex of the sampled surface is halfway between two neighbouring lattice points, one inside and one
outside. Up to four cells have triangles there. In each of them the area normals lean from the inside
point to the outside one, and so does the sum over all triangles at the vertex, which is what refinement
asks the mesh for.

* `Mesh.Coherent.areaNormalAt_dot`: the normal at a vertex as a sum over the list of triangles.
* `Lattice.Crossing`: two neighbouring lattice points of which the first is inside.
* `Lattice.exists_crossing`: where the vertices are.
* `Lattice.areaNormalAt_dot_pos`: the main result.
-/

set_option autoImplicit false

namespace Isomesh

variable {K : Type} [Field K] [LinearOrder K] [IsStrictOrderedRing K] [FloorRing K] [SquareRoot K]

/-! ## The normal at a vertex -/

theorem Vec3.foldl_add_dot (vs : List (Vec3 K)) (u d : Vec3 K) :
    (vs.foldl (· + ·) u).dot d = u.dot d + (vs.map fun v => v.dot d).sum := by
  induction vs generalizing u with
  | nil => simp
  | cons v vs ih =>
    rw [List.foldl_cons, ih, List.map_cons, List.sum_cons, ← add_assoc]
    simp only [dot, add_def, add_mul]
    ring

theorem Vec3.sum_dot (vs : List (Vec3 K)) (d : Vec3 K) :
    (Vec3.sum vs).dot d = (vs.map fun v => v.dot d).sum := by
  have hzero : (zero : Vec3 K).dot d = 0 := by simp [dot, zero]
  rw [sum, foldl_add_dot, hzero, zero_add]

/-- How far the triangles with a corner at `v` lean along `d`, all together. -/
def leanSum (ts : List (Triangle K)) (v d : Vec3 K) : K :=
  ((ts.filter fun t => t.hasCorner v.key).map fun t => t.areaNormal.dot d).sum

theorem leanSum_flatMap {α : Type} (as : List α) (f : α → List (Triangle K)) (v d : Vec3 K) :
    leanSum (as.flatMap f) v d = (as.map fun a => leanSum (f a) v d).sum := by
  induction as with
  | nil => rfl
  | cons a as ih =>
    rw [List.map_cons, List.sum_cons, ← ih, List.flatMap_cons, leanSum, leanSum, leanSum,
      List.filter_append, List.map_append, List.sum_append]

namespace Mesh

variable {m : Mesh K}

/-- **The normal at a vertex** adds up the triangles there, in whatever order they are listed. -/
theorem Coherent.areaNormalAt_dot (h : m.Coherent) (v d : Vec3 K) :
    (m.areaNormalAt v).dot d = leanSum m.triangles v d := by
  have hlive : ((m.toList.filter fun e => e.2.hasCorner v.key).map Prod.fst).filterMap
      (fun id => (m.get? id).map Triangle.areaNormal) =
        (m.toList.filter fun e => e.2.hasCorner v.key).map fun e => e.2.areaNormal := by
    rw [List.filterMap_map, List.filterMap_eq_map_iff_forall_eq_some]
    intro e he
    have hget : m.get? e.1 = some e.2 := Arena.mem_toList.1 (List.mem_filter.1 he).1
    rw [Function.comp_apply, hget, Option.map_some]
  have hperm := m.perm_of_mem_iff (h.nodup_trianglesAt v) fun id => h.mem_trianglesAt
  have hnormals := hperm.filterMap fun id => (m.get? id).map Triangle.areaNormal
  rw [hlive] at hnormals
  rw [areaNormalAt, Vec3.sum_dot, (hnormals.map fun n => n.dot d).sum_eq, leanSum, triangles,
    Arena.values, List.filter_map, List.map_map, List.map_map]
  rfl

end Mesh

/-! ## Lattice points -/

/-- Whether two lattice points, given by their numbers, are neighbours along an axis. -/
def Neighbours (axis : Axis) (n m : Vec3 Nat) : Prop :=
  (m.get axis = n.get axis + 1 ∨ n.get axis = m.get axis + 1) ∧ ∀ a ≠ axis, n.get a = m.get a

theorem Neighbours.symm {axis : Axis} {n m : Vec3 Nat} (h : Neighbours axis n m) :
    Neighbours axis m n :=
  ⟨h.1.symm, fun a ha => (h.2 a ha).symm⟩

/-- The middle between two lattice points, in halves of the lattice distance. -/
def middle (n m : Vec3 Nat) : Vec3 Nat := .ofFn fun axis => n.get axis + m.get axis

@[simp] theorem get_middle (n m : Vec3 Nat) (axis : Axis) :
    (middle n m).get axis = n.get axis + m.get axis := Vec3.get_ofFn _ axis

/-- The middle between two points tells which neighbours they are. -/
theorem Neighbours.eq_or_swap {a b : Axis} {n m n' m' : Vec3 Nat} (h : Neighbours a n m)
    (h' : Neighbours b n' m') (heq : middle n m = middle n' m') :
    n' = n ∧ m' = m ∨ n' = m ∧ m' = n := by
  have hsum : ∀ axis, n.get axis + m.get axis = n'.get axis + m'.get axis := fun axis => by
    rw [← get_middle, heq, get_middle]
  have hab : a = b := by
    by_contra hne
    have h1 := h.1
    have h2 := h'.2 a hne
    have h3 := hsum a
    omega
  subst hab
  have others : ∀ axis ≠ a, n'.get axis = n.get axis ∧ m'.get axis = m.get axis ∧
      n.get axis = m.get axis := by
    intro axis hne
    have h1 := h.2 axis hne
    have h2 := h'.2 axis hne
    have h3 := hsum axis
    omega
  have hends : n'.get a = n.get a ∧ m'.get a = m.get a ∨
      n'.get a = m.get a ∧ m'.get a = n.get a := by
    have h1 := h.1
    have h2 := h'.1
    have h3 := hsum a
    omega
  have ext {u w : Vec3 Nat} (ha : u.get a = w.get a) (hne : ∀ axis ≠ a, u.get axis = w.get axis) :
      u = w :=
    Vec3.ext_get fun axis => if hax : axis = a then hax ▸ ha else hne axis hax
  rcases hends with ⟨hn, hm⟩ | ⟨hn, hm⟩
  · exact .inl ⟨ext hn fun axis hne => (others axis hne).1, ext hm fun axis hne => (others axis hne).2.1⟩
  · refine .inr ⟨ext hn fun axis hne => ?_, ext hm fun axis hne => ?_⟩
    · obtain ⟨h1, -, h3⟩ := others axis hne
      exact h1.trans h3
    · obtain ⟨-, h2, h3⟩ := others axis hne
      exact h2.trans h3.symm

theorem Corner.along_le (c : Corner) (axis : Axis) : c.along axis ≤ 1 := by
  cases axis <;> revert c <;> decide

/-- The number of a corner of a cell. -/
def Cell.corner (c : Cell) (p : Corner) : Vec3 Nat := .ofFn fun axis => c.along axis + p.along axis

theorem Cell.half_mk (c : Cell) (p q : Corner) :
    c.half s(p, q) = middle (c.corner p) (c.corner q) := by
  refine Vec3.ext_get fun axis => ?_
  simp only [half, corner, get_middle, Vec3.get_ofFn, edgeAlong, Sym2.lift_mk]
  omega

/-- The ends of an edge of a cell are neighbours. -/
theorem IsCubeEdge.neighbours {p q : Corner} (h : IsCubeEdge s(p, q)) (c : Cell) :
    ∃ axis, Neighbours axis (c.corner p) (c.corner q) := by
  obtain ⟨f, hf⟩ := h
  obtain ⟨n, hn⟩ := CubeFace.mem_edges.1 hf
  obtain ⟨axis, hone, hother⟩ := f.edgeAlong_eq_one n
  rw [hn] at hone hother
  refine ⟨axis, ?_, fun a ha => ?_⟩
  · simp only [Cell.corner, Vec3.get_ofFn]
    simp only [edgeAlong, Sym2.lift_mk] at hone
    omega
  · have hne := hother a ha
    have := p.along_le a
    have := q.along_le a
    simp only [Cell.corner, Vec3.get_ofFn]
    simp only [edgeAlong, Sym2.lift_mk] at hne
    omega

namespace Lattice

variable {l : Lattice K} {solid : Solid K} {c : Cell} {inner outer : Vec3 Nat}

/-- The lattice point with given numbers. -/
def point (l : Lattice K) (n : Vec3 Nat) : Vec3 K := .ofFn fun axis => l.coord axis (n.get axis)

/-- Whether two neighbouring points of the lattice have the surface between them, the first inside. -/
structure Crossing (l : Lattice K) (solid : Solid K) (inner outer : Vec3 Nat) : Prop where
  neighbours : ∃ axis, Neighbours axis inner outer
  lt_count : ∀ axis, inner.get axis < l.count axis ∧ outer.get axis < l.count axis
  inside : solid.contains (l.point inner) = true
  outside : solid.contains (l.point outer) = false

theorem has_maskOf (l : Lattice K) (solid : Solid K) (c : Cell) (p : Corner) :
    (l.maskOf solid c).has p = solid.contains (l.point (c.corner p)) :=
  has_directMask l solid c.1 c.2.1 c.2.2 p

theorem Crossing.eq {n m : Vec3 Nat} (h : l.Crossing solid inner outer) (h' : l.Crossing solid n m)
    (heq : middle inner outer = middle n m) : n = inner ∧ m = outer := by
  obtain ⟨a, ha⟩ := h.neighbours
  obtain ⟨b, hb⟩ := h'.neighbours
  rcases ha.eq_or_swap hb heq with hsame | ⟨rfl, rfl⟩
  · exact hsame
  · have hin := h'.inside
    rw [h.outside] at hin
    cases hin

theorem crossing_of_has (hc : c ∈ l.cells) {p q : Corner} (hedge : IsCubeEdge s(p, q))
    (hp : (l.maskOf solid c).has p = true) (hq : (l.maskOf solid c).has q = false) :
    l.Crossing solid (c.corner p) (c.corner q) := by
  refine ⟨hedge.neighbours c, fun axis => ?_, l.has_maskOf solid c p ▸ hp, l.has_maskOf solid c q ▸ hq⟩
  have hlt := mem_cells.1 hc axis
  have := p.along_le axis
  have := q.along_le axis
  simp only [Cell.corner, Vec3.get_ofFn]
  omega

theorem get_point (l : Lattice K) (n : Vec3 Nat) (axis : Axis) :
    (l.point n).get axis = l.origin.get axis + (n.get axis : K) * l.delta := by
  rw [point, Vec3.get_ofFn, coord]

theorem get_halfPoint (l : Lattice K) (h : Vec3 Nat) (axis : Axis) :
    (l.halfPoint h).get axis = l.origin.get axis + (h.get axis : K) * (l.delta / 2) := by
  rw [halfPoint, Vec3.get_ofFn, mul_half_eq]

theorem midpoint_point (l : Lattice K) (n m : Vec3 Nat) :
    (l.point n).midpoint (l.point m) = l.halfPoint (middle n m) := by
  refine Vec3.ext_get fun axis => ?_
  rw [Vec3.midpoint, Vec3.get_scale, Vec3.get_add, get_point, get_point, get_halfPoint, get_middle,
    mul_half_eq]
  push_cast
  ring

/-! ## One cell -/

theorem halfPoint_sub (l : Lattice K) (c : Cell) (d e : Sym2 Corner) :
    l.halfPoint (c.half e) - l.halfPoint (c.half d) =
      .ofFn fun axis => (middleTo d e axis : K) * (l.delta / 2) := by
  refine Vec3.ext_get fun axis => ?_
  simp only [Vec3.get_sub, get_halfPoint, Cell.half, Vec3.get_ofFn, middleTo]
  push_cast
  ring

theorem point_sub (l : Lattice K) (c : Cell) (p q : Corner) :
    l.point (c.corner q) - l.point (c.corner p) = .ofFn fun axis => (p.to q axis : K) * l.delta := by
  refine Vec3.ext_get fun axis => ?_
  simp only [Vec3.get_sub, get_point, Cell.corner, Vec3.get_ofFn, Corner.to]
  push_cast
  ring

/-- A triangle of a cell leans as its stencil triangle does. -/
theorem areaNormal_placeTriangle_dot (l : Lattice K) (c : Cell) (t : StencilTriangle) (p q : Corner) :
    (l.placeTriangle c.1 c.2.1 c.2.2 t).areaNormal.dot (l.point (c.corner q) - l.point (c.corner p)) =
      l.delta / 2 * (l.delta / 2) * l.delta * t.lean p q := by
  simp only [placeTriangle, edgeMidpoint_eq, Triangle.areaNormal, halfPoint_sub, point_sub, Vec3.ofFn,
    Vec3.cross, Vec3.dot, StencilTriangle.lean, tripleProduct]
  push_cast
  ring

/-- The edges that a stencil uses are edges of the cube with one corner inside. -/
theorem crossing_of_mem_edges {t : StencilTriangle} (ht : t ∈ (l.maskOf solid c).stencil)
    {e : Sym2 Corner} (he : e ∈ t.edges) :
    ∃ p q, e = s(p, q) ∧ IsCubeEdge s(p, q) ∧ (l.maskOf solid c).has p = true ∧
      (l.maskOf solid c).has q = false := by
  obtain ⟨p, q, rfl, hp, hq⟩ := (l.maskOf solid c).stencil_outward.crossing t ht e he
  obtain ⟨side, hside, hfst⟩ : ∃ side ∈ t.sides, side.1 = s(p, q) := by
    simpa [StencilTriangle.sides, StencilTriangle.edges, eq_comm] using he
  have hmem : side ∈ (l.maskOf solid c).stencil.sides := List.mem_flatMap.2 ⟨t, ht, hside⟩
  exact ⟨p, q, rfl, hfst ▸ ((l.maskOf solid c).stencil_fits.isCubeEdge side hmem).1, hp, hq⟩

theorem mem_corners_placeTriangle {t : StencilTriangle} {v : Vec3 K} :
    v ∈ (l.placeTriangle c.1 c.2.1 c.2.2 t).corners ↔ ∃ e ∈ t.edges, l.halfPoint (c.half e) = v := by
  simp only [Triangle.corners, placeTriangle, edgeMidpoint_eq, StencilTriangle.edges, List.mem_cons,
    List.not_mem_nil, or_false, exists_eq_or_imp, exists_eq_left, eq_comm (a := v)]

/-- **The triangles of a cell at the middle of one of its edges** lean as those of the stencil do. -/
theorem leanSum_directCell (hd : 0 < l.delta) {p q : Corner} (hedge : IsCubeEdge s(p, q)) :
    leanSum (Window.directCell l solid c) (l.halfPoint (c.half s(p, q)))
        (l.point (c.corner q) - l.point (c.corner p)) =
      l.delta / 2 * (l.delta / 2) * l.delta * (l.maskOf solid c).stencil.leanAt p q := by
  have hat : ∀ t ∈ (l.maskOf solid c).stencil,
      (l.placeTriangle c.1 c.2.1 c.2.2 t).hasCorner (l.halfPoint (c.half s(p, q))).key =
        t.edges.elem s(p, q) := by
    intro t ht
    rw [Bool.eq_iff_iff, Triangle.hasCorner_iff, mem_corners_placeTriangle, List.elem_iff]
    constructor
    · rintro ⟨e, he, heq⟩
      obtain ⟨p', q', rfl, hedge', -⟩ := crossing_of_mem_edges ht he
      rwa [← Cell.half_injective hedge' hedge (halfPoint_injective hd heq)]
    · exact fun he => ⟨_, he, rfl⟩
  change leanSum ((l.maskOf solid c).stencil.map (l.placeTriangle c.1 c.2.1 c.2.2)) _ _ = _
  rw [leanSum, List.filter_map, List.filter_congr (q := fun t => t.edges.elem s(p, q)) hat, List.map_map,
    Stencil.leanAt, Stencil.atMiddle, Int.cast_list_sum, List.map_map, ← List.sum_map_mul_left]
  exact congrArg List.sum (List.map_congr_left fun t _ => l.areaNormal_placeTriangle_dot c t p q)

/-! ## All cells -/

theorem exists_edge_of_mem_directCell {t : Triangle K} (ht : t ∈ Window.directCell l solid c)
    {v : Vec3 K} (hv : v ∈ t.corners) :
    ∃ p q, IsCubeEdge s(p, q) ∧ (l.maskOf solid c).has p = true ∧ (l.maskOf solid c).has q = false ∧
      v = l.halfPoint (c.half s(p, q)) := by
  obtain ⟨t, hstencil, rfl⟩ := List.mem_map.1 ht
  obtain ⟨e, he, rfl⟩ := mem_corners_placeTriangle.1 hv
  obtain ⟨p, q, rfl, hedge, hp, hq⟩ := crossing_of_mem_edges hstencil he
  exact ⟨p, q, hedge, hp, hq, rfl⟩

/-- **Every vertex is halfway between a lattice point inside and a neighbour outside.** -/
theorem exists_crossing {t : Triangle K} (ht : t ∈ l.directSurface solid) {v : Vec3 K}
    (hv : v ∈ t.corners) :
    ∃ inner outer, l.Crossing solid inner outer ∧ v = (l.point inner).midpoint (l.point outer) := by
  obtain ⟨c, hc, ht⟩ := List.mem_flatMap.1 ht
  obtain ⟨p, q, hedge, hp, hq, rfl⟩ := exists_edge_of_mem_directCell ht hv
  refine ⟨_, _, crossing_of_has hc hedge hp hq, ?_⟩
  rw [midpoint_point, ← Cell.half_mk]

/-- Every cell with triangles at a vertex leans from the point inside to the one outside. -/
theorem leanSum_directCell_pos (hd : 0 < l.delta) (h : l.Crossing solid inner outer) (hc : c ∈ l.cells)
    {t : Triangle K} (ht : t ∈ Window.directCell l solid c)
    (hv : (l.point inner).midpoint (l.point outer) ∈ t.corners) :
    0 < leanSum (Window.directCell l solid c) ((l.point inner).midpoint (l.point outer))
      (l.point outer - l.point inner) := by
  obtain ⟨p, q, hedge, hp, hq, hmid⟩ := exists_edge_of_mem_directCell ht hv
  have hhalf : middle inner outer = middle (c.corner p) (c.corner q) := by
    rw [midpoint_point] at hmid
    rw [halfPoint_injective hd hmid, c.half_mk]
  obtain ⟨rfl, rfl⟩ := h.eq (crossing_of_has hc hedge hp hq) hhalf
  rw [hmid, leanSum_directCell hd hedge]
  have hlean := (l.maskOf solid c).stencil_outward.leans p q hedge hp hq
  have hhalfDelta : 0 < l.delta / 2 := half_pos hd
  exact mul_pos (mul_pos (mul_pos hhalfDelta hhalfDelta) hd) (Int.cast_pos.2 hlean)

/-- **The normal at a vertex leans from the lattice point inside to the one outside.** -/
theorem areaNormalAt_dot_pos (hd : 0 < l.delta) {mesh : Mesh K} (hmesh : mesh.Coherent)
    (htriangles : mesh.triangles = l.directSurface solid) (h : l.Crossing solid inner outer)
    {t : Triangle K} (ht : t ∈ l.directSurface solid)
    (hv : (l.point inner).midpoint (l.point outer) ∈ t.corners) :
    0 < (mesh.areaNormalAt ((l.point inner).midpoint (l.point outer))).dot
      (l.point outer - l.point inner) := by
  rw [hmesh.areaNormalAt_dot, htriangles]
  change 0 < leanSum (l.cells.flatMap (Window.directCell l solid)) _ _
  rw [leanSum_flatMap]
  have hnonneg : ∀ x ∈ l.cells.map fun c => leanSum (Window.directCell l solid c)
      ((l.point inner).midpoint (l.point outer)) (l.point outer - l.point inner), 0 ≤ x := by
    rw [List.forall_mem_map]
    intro c hc
    by_cases hsome : ∃ t ∈ Window.directCell l solid c,
        (l.point inner).midpoint (l.point outer) ∈ t.corners
    · obtain ⟨t, ht, hv⟩ := hsome
      exact (leanSum_directCell_pos hd h hc ht hv).le
    · have hfilter : (Window.directCell l solid c).filter (fun t =>
          t.hasCorner ((l.point inner).midpoint (l.point outer)).key) = [] :=
        List.filter_eq_nil_iff.2 fun t ht hv => hsome ⟨t, ht, Triangle.hasCorner_iff.1 hv⟩
      rw [leanSum, hfilter]
      exact le_rfl
  obtain ⟨c, hc, ht⟩ := List.mem_flatMap.1 ht
  exact (leanSum_directCell_pos hd h hc ht hv).trans_le
    (List.single_le_sum hnonneg _ (List.mem_map_of_mem hc))

end Lattice

end Isomesh
