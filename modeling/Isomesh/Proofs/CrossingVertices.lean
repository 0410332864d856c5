import Mathlib
import Isomesh.Proofs.OutwardNormals
import Isomesh.Proofs.PulledTriangles
import Isomesh.Proofs.Welding

/-!
# One vertex for each edge that the surface crosses

The surface that is not refined has its vertices halfway along the edges of the lattice with one end
inside and one outside. Every such edge belongs to a cell, and every stencil has a triangle at each edge
that its corners call for: the triangles there lean outward together, which no triangles at all would not
do. A lattice edge that several cells share has its middle in one place, whatever stencils, rotations and
corner numbers the cells come to it by, so it gives one vertex.

* `Lattice.edges`, `Lattice.crossingEdges`: the edges of a lattice, each once.
* `Lattice.exists_cell`: an edge of the lattice is in a cell, also at the border.
* `Lattice.Crossing.exists_triangle`: no crossing is missed.
* `contour_vertices_are_crossings`: the main result.
-/

set_option autoImplicit false

namespace Isomesh

/-! ## The edges of a lattice -/

namespace Lattice

section Numbers

variable {K : Type} {l : Lattice K} {n m : Vec3 Nat} {axis : Axis}

/-- The numbers of all lattice points. -/
def numbers (l : Lattice K) : List (Vec3 Nat) := (l.points 0 l.nz).map fun n => ⟨n.1, n.2.1, n.2.2⟩

/-- The next lattice point along an axis. -/
def next (axis : Axis) (n : Vec3 Nat) : Vec3 Nat := n.set axis (n.get axis + 1)

/-- The edges of a lattice: along each axis from each point to the next, as long as there is one. -/
def edges (l : Lattice K) : List (Vec3 Nat × Vec3 Nat) :=
  Axis.all.flatMap fun axis =>
    (l.numbers.filter fun n => n.get axis + 1 < l.count axis).map fun n => (n, next axis n)

theorem mem_numbers : n ∈ l.numbers ↔ ∀ axis, n.get axis < l.count axis := by
  obtain ⟨i, j, k⟩ := n
  simp only [numbers, List.mem_map, Prod.exists, mem_points, Vec3.mk.injEq]
  constructor
  · rintro ⟨i, j, k, ⟨hi, hj, -, hk⟩, rfl, rfl, rfl⟩ axis
    cases axis <;> simp only [Vec3.get, count] <;> omega
  · intro h
    have hx := h .x
    have hy := h .y
    have hz := h .z
    simp only [Vec3.get, count] at hx hy hz
    exact ⟨i, j, k, ⟨hx, hy, Nat.zero_le k, by omega⟩, rfl, rfl, rfl⟩

theorem nodup_numbers (l : Lattice K) : l.numbers.Nodup := by
  -- the points of a lattice are the lowest corners of the cells of the next larger one
  have hpoints : (l.points 0 l.nz).Nodup := by
    have hcells := nodup_cells ⟨l.origin, l.delta, l.nx + 1, l.ny + 1, l.nz + 1⟩
    simpa [cells, points] using hcells
  refine hpoints.map fun n m h => ?_
  simp only [Vec3.mk.injEq] at h
  exact Prod.ext h.1 (Prod.ext h.2.1 h.2.2)

theorem get_next_self (axis : Axis) (n : Vec3 Nat) : (next axis n).get axis = n.get axis + 1 :=
  Vec3.get_set_self ..

theorem get_next_of_ne {a : Axis} (h : a ≠ axis) : (next axis n).get a = n.get a :=
  Vec3.get_set_of_ne _ _ h

theorem neighbours_next (axis : Axis) (n : Vec3 Nat) : Neighbours axis n (next axis n) :=
  ⟨.inl (get_next_self axis n), fun _ ha => (get_next_of_ne ha).symm⟩

theorem eq_next_of_neighbours (h : Neighbours axis n m) : m = next axis n ∨ n = next axis m := by
  refine h.1.imp (fun hup => ?_) fun hdown => ?_
  · refine Vec3.ext_get fun a => ?_
    by_cases ha : a = axis
    · rw [ha, get_next_self, hup]
    · rw [get_next_of_ne ha, h.2 a ha]
  · refine Vec3.ext_get fun a => ?_
    by_cases ha : a = axis
    · rw [ha, get_next_self, hdown]
    · rw [get_next_of_ne ha, h.2 a ha]

theorem mem_edges : (n, m) ∈ l.edges ↔
    (∃ axis, m = next axis n) ∧ ∀ axis, n.get axis < l.count axis ∧ m.get axis < l.count axis := by
  simp only [edges, List.mem_flatMap, Axis.mem_all, true_and, List.mem_map, List.mem_filter,
    mem_numbers, decide_eq_true_eq, Prod.mk.injEq]
  constructor
  · rintro ⟨axis, n, ⟨hn, hnext⟩, rfl, rfl⟩
    refine ⟨⟨axis, rfl⟩, fun a => ⟨hn a, ?_⟩⟩
    by_cases ha : a = axis
    · rwa [ha, get_next_self]
    · rw [get_next_of_ne ha]
      exact hn a
  · rintro ⟨⟨axis, rfl⟩, h⟩
    exact ⟨axis, n, ⟨fun a => (h a).1, get_next_self axis n ▸ (h axis).2⟩, rfl, rfl⟩

/-- An edge is known by its middle. -/
theorem middle_injOn_edges {e f : Vec3 Nat × Vec3 Nat} (he : e ∈ l.edges) (hf : f ∈ l.edges)
    (h : middle e.1 e.2 = middle f.1 f.2) : e = f := by
  obtain ⟨n, m⟩ := e
  obtain ⟨n', m'⟩ := f
  obtain ⟨⟨a, rfl⟩, -⟩ := mem_edges.1 he
  obtain ⟨⟨b, rfl⟩, -⟩ := mem_edges.1 hf
  rcases (neighbours_next a n).eq_or_swap (neighbours_next b n') h with ⟨rfl, hm⟩ | ⟨rfl, hn⟩
  · rw [hm]
  · -- the upper end of an edge is not the lower end of the same edge
    have hlower := get_next_self b (next a n)
    rw [hn] at hlower
    have hupper : n.get b ≤ (next a n).get b := by
      by_cases hb : b = a
      · rw [hb, get_next_self]
        omega
      · rw [get_next_of_ne hb]
    omega

theorem nodup_edges (l : Lattice K) : l.edges.Nodup := by
  refine List.nodup_flatMap.2 ⟨fun axis _ => ?_, ?_⟩
  · exact (l.nodup_numbers.filter _).map fun n m h => congrArg Prod.fst h
  · have hall : Axis.all.Nodup := by decide
    refine hall.imp fun {a b} hab => List.disjoint_left.2 fun e ha hb => ?_
    obtain ⟨n, -, rfl⟩ := List.mem_map.1 ha
    obtain ⟨m, -, heq⟩ := List.mem_map.1 hb
    obtain ⟨rfl, hnext⟩ := Prod.mk.injEq .. ▸ heq
    have hget := congrArg (Vec3.get · a) hnext
    simp only [get_next_self, get_next_of_ne hab] at hget
    omega

end Numbers

end Lattice

/-! ## Edges in cells -/

/-- The corner with given positions. -/
theorem Corner.exists_along {f : Axis → Nat} (h : ∀ axis, f axis ≤ 1) :
    ∃ p : Corner, ∀ axis, p.along axis = f axis := by
  have hx := h .x
  have hy := h .y
  have hz := h .z
  refine ⟨⟨f .x + 2 * f .y + 4 * f .z, by omega⟩, fun axis => ?_⟩
  cases axis <;> simp only [along, x, y, z] <;> omega

/-- Corners that differ along one axis only are the ends of an edge of a face. By trying all. -/
theorem CubeFace.exists_mem_edges_of_along : ∀ axis ∈ Axis.all, ∀ p ∈ Corner.all, ∀ q ∈ Corner.all,
    p.along axis ≠ q.along axis → (∀ a ∈ Axis.all, a ≠ axis → p.along a = q.along a) →
      ∃ f ∈ CubeFace.all, s(p, q) ∈ f.edges := by
  decide +kernel

/-- Corners that differ along one axis bound an edge of the cube. -/
theorem IsCubeEdge.of_along {p q : Corner} {axis : Axis} (hne : p.along axis ≠ q.along axis)
    (hother : ∀ a ≠ axis, p.along a = q.along a) : IsCubeEdge s(p, q) := by
  obtain ⟨f, -, hf⟩ := CubeFace.exists_mem_edges_of_along axis (Axis.mem_all axis) p p.mem_all q q.mem_all
    hne fun a _ => hother a
  exact ⟨f, hf⟩

section Cells

variable {K : Type} {l : Lattice K} {n m : Vec3 Nat}

/-- The cell of an edge: the one above its lower end, or below the last layer of points. -/
theorem Lattice.exists_lowest {axis : Axis} (h : Neighbours axis n m) (hcount : ∀ axis, 2 ≤ l.count axis)
    (hlt : ∀ axis, n.get axis < l.count axis ∧ m.get axis < l.count axis) :
    ∃ c : Cell, c ∈ l.cells ∧ ∀ a, (c.along a ≤ n.get a ∧ n.get a ≤ c.along a + 1) ∧
      c.along a ≤ m.get a ∧ m.get a ≤ c.along a + 1 := by
  have hfit (a : Axis) : ∃ i, i + 1 < l.count a ∧ (i ≤ n.get a ∧ n.get a ≤ i + 1) ∧
      i ≤ m.get a ∧ m.get a ≤ i + 1 := by
    refine ⟨min (min (n.get a) (m.get a)) (l.count a - 2), ?_⟩
    have hcount := hcount a
    have hlt := hlt a
    have hnear : n.get a = m.get a ∨ m.get a = n.get a + 1 ∨ n.get a = m.get a + 1 := by
      by_cases ha : a = axis
      · exact .inr (ha ▸ h.1)
      · exact .inl (h.2 a ha)
    omega
  choose lowest hlowest using hfit
  refine ⟨Cell.ofFn lowest, Lattice.mem_cells.2 fun a => ?_, fun a => ?_⟩
  · rw [Cell.along_ofFn]
    exact (hlowest a).1
  · rw [Cell.along_ofFn]
    exact (hlowest a).2

/-- **An edge of the lattice is an edge of a cell.** -/
theorem Lattice.exists_cell {axis : Axis} (h : Neighbours axis n m) (hcount : ∀ axis, 2 ≤ l.count axis)
    (hlt : ∀ axis, n.get axis < l.count axis ∧ m.get axis < l.count axis) :
    ∃ c : Cell, c ∈ l.cells ∧ ∃ p q, IsCubeEdge s(p, q) ∧ c.corner p = n ∧ c.corner q = m := by
  obtain ⟨c, hc, hends⟩ := Lattice.exists_lowest h hcount hlt
  have hcorner {n : Vec3 Nat} (hn : ∀ a, c.along a ≤ n.get a ∧ n.get a ≤ c.along a + 1) :
      ∃ p, c.corner p = n := by
    obtain ⟨p, hp⟩ := Corner.exists_along (f := fun a => n.get a - c.along a) fun a =>
      Nat.sub_le_iff_le_add'.2 (hn a).2
    refine ⟨p, Vec3.ext_get fun a => ?_⟩
    rw [Cell.corner, Vec3.get_ofFn, hp, Nat.add_sub_cancel' (hn a).1]
  obtain ⟨p, rfl⟩ := hcorner fun a => (hends a).1
  obtain ⟨q, rfl⟩ := hcorner fun a => (hends a).2
  have hdiff : p.along axis ≠ q.along axis := by
    have hstep := h.1
    simp only [Cell.corner, Vec3.get_ofFn] at hstep
    omega
  refine ⟨c, hc, p, q, .of_along hdiff fun a ha => ?_, rfl, rfl⟩
  simpa only [Cell.corner, Vec3.get_ofFn, Nat.add_left_cancel_iff] using h.2 a ha

end Cells

/-! ## Stencils in cells -/

/-- A stencil has a triangle at each edge with one corner inside. -/
theorem CornerMask.exists_mem_stencil (mask : CornerMask) {p q : Corner} (hedge : IsCubeEdge s(p, q))
    (hp : mask.has p = true) (hq : mask.has q = false) : ∃ t ∈ mask.stencil, s(p, q) ∈ t.edges := by
  have hlean := mask.stencil_outward.leans p q hedge hp hq
  have hsome : mask.stencil.atMiddle s(p, q) ≠ [] := fun hnone => by
    rw [Stencil.leanAt, hnone] at hlean
    exact absurd hlean (lt_irrefl 0)
  obtain ⟨t, ht⟩ := List.exists_mem_of_ne_nil _ hsome
  obtain ⟨hstencil, hat⟩ := List.mem_filter.1 ht
  exact ⟨t, hstencil, List.elem_iff.1 hat⟩

namespace Lattice

variable {K : Type} [Field K] [LinearOrder K] [IsStrictOrderedRing K] [FloorRing K] [SquareRoot K]
  {l : Lattice K} {solid : Solid K} {inner outer : Vec3 Nat}

/-- **No crossing is missed**: the surface has a corner halfway along it. -/
theorem Crossing.exists_triangle (h : l.Crossing solid inner outer) (hcount : ∀ axis, 2 ≤ l.count axis) :
    ∃ t ∈ l.directSurface solid, (l.point inner).midpoint (l.point outer) ∈ t.corners := by
  obtain ⟨axis, hneighbours⟩ := h.neighbours
  obtain ⟨c, hc, p, q, hedge, rfl, rfl⟩ := exists_cell hneighbours hcount h.lt_count
  have hp : (l.maskOf solid c).has p = true := (l.has_maskOf solid c p).trans h.inside
  have hq : (l.maskOf solid c).has q = false := (l.has_maskOf solid c q).trans h.outside
  obtain ⟨t, ht, hat⟩ := (l.maskOf solid c).exists_mem_stencil hedge hp hq
  refine ⟨l.placeTriangle c.1 c.2.1 c.2.2 t, List.mem_flatMap.2 ⟨c, hc, List.mem_map_of_mem ht⟩, ?_⟩
  rw [midpoint_point, ← Cell.half_mk]
  exact mem_corners_placeTriangle.2 ⟨_, hat, rfl⟩

/-! ## Edges that the surface crosses -/

/-- The edges of a lattice with one end inside and one outside. -/
def crossingEdges (l : Lattice K) (solid : Solid K) : List (Vec3 Nat × Vec3 Nat) :=
  l.edges.filter fun e => solid.contains (l.point e.1) != solid.contains (l.point e.2)

/-- The middle of an edge of a lattice. -/
def edgeCenter (l : Lattice K) (e : Vec3 Nat × Vec3 Nat) : Vec3 K := (l.point e.1).midpoint (l.point e.2)

theorem crossing_of_mem_crossingEdges {e : Vec3 Nat × Vec3 Nat} (he : e ∈ l.crossingEdges solid) :
    l.Crossing solid e.1 e.2 ∨ l.Crossing solid e.2 e.1 := by
  obtain ⟨n, m⟩ := e
  obtain ⟨hedge, hdiffer⟩ := List.mem_filter.1 he
  obtain ⟨⟨axis, rfl⟩, hlt⟩ := mem_edges.1 hedge
  have hneighbours := neighbours_next axis n
  cases hn : solid.contains (l.point n) with
  | true =>
    refine .inl ⟨⟨axis, hneighbours⟩, hlt, hn, ?_⟩
    simpa [hn] using hdiffer
  | false =>
    refine .inr ⟨⟨axis, Neighbours.symm hneighbours⟩, fun a => (hlt a).symm, ?_, hn⟩
    simpa [hn] using hdiffer

theorem Crossing.mem_crossingEdges (h : l.Crossing solid inner outer) :
    (inner, outer) ∈ l.crossingEdges solid ∨ (outer, inner) ∈ l.crossingEdges solid := by
  obtain ⟨axis, hneighbours⟩ := h.neighbours
  refine (eq_next_of_neighbours hneighbours).imp (fun hup => ?_) fun hdown => ?_
  · refine List.mem_filter.2 ⟨mem_edges.2 ⟨⟨axis, hup⟩, h.lt_count⟩, ?_⟩
    simp [h.inside, h.outside]
  · refine List.mem_filter.2 ⟨mem_edges.2 ⟨⟨axis, hdown⟩, fun a => (h.lt_count a).symm⟩, ?_⟩
    simp [h.inside, h.outside]

/-- The crossings are at the middles of the edges that are crossed. -/
theorem mem_map_edgeCenter {v : Vec3 K} : v ∈ (l.crossingEdges solid).map l.edgeCenter ↔
    ∃ inner outer, l.Crossing solid inner outer ∧ v = (l.point inner).midpoint (l.point outer) := by
  have hswap (n m : Vec3 Nat) : l.edgeCenter (n, m) = l.edgeCenter (m, n) := Vec3.midpoint_comm ..
  rw [List.mem_map]
  constructor
  · rintro ⟨⟨n, m⟩, he, rfl⟩
    rcases crossing_of_mem_crossingEdges he with h | h
    · exact ⟨n, m, h, rfl⟩
    · exact ⟨m, n, h, hswap n m⟩
  · rintro ⟨inner, outer, h, rfl⟩
    rcases h.mem_crossingEdges with he | he
    · exact ⟨_, he, rfl⟩
    · exact ⟨_, he, hswap outer inner⟩

/-- Different edges have different middles. -/
theorem nodup_map_edgeCenter (hd : 0 < l.delta) (solid : Solid K) :
    ((l.crossingEdges solid).map l.edgeCenter).Nodup := by
  refine (l.nodup_edges.filter _).map_on fun e he f hf heq => ?_
  rw [edgeCenter, edgeCenter, midpoint_point, midpoint_point] at heq
  exact middle_injOn_edges (List.mem_of_mem_filter he) (List.mem_of_mem_filter hf)
    (halfPoint_injective hd heq)

end Lattice

/-! ## Main result -/

variable {K : Type} [Field K] [LinearOrder K] [IsStrictOrderedRing K] [FloorRing K] [SquareRoot K]

/-- The vertices of a surface are at the crossings. -/
theorem Mesh.mem_vertices_directSurface {l : Lattice K} {solid : Solid K}
    (hcount : ∀ axis, 2 ≤ l.count axis) {v : Vec3 K} :
    v ∈ (Mesh.ofTriangles (l.directSurface solid)).vertices ↔
      ∃ inner outer, l.Crossing solid inner outer ∧ v = (l.point inner).midpoint (l.point outer) := by
  have htriangles := Mesh.triangles_ofTriangles (l.directSurface solid)
  constructor
  · intro hv
    obtain ⟨t, ht, hvt⟩ := Mesh.exists_corner_of_vertex hv
    exact Lattice.exists_crossing (htriangles ▸ ht) hvt
  · rintro ⟨inner, outer, h, rfl⟩
    obtain ⟨t, ht, hvt⟩ := h.exists_triangle hcount
    exact Mesh.mem_vertices_of_corner (htriangles.symm ▸ ht) hvt

/-- **One vertex for each edge that the surface crosses**, whatever points the solid contains. A surface
that is not refined has its vertices halfway between a lattice point inside and a neighbour outside, and
it has one there for every such pair. None occurs twice, so there are as many as edges of the lattice
with one end inside. -/
theorem contour_vertices_are_crossings {solid : Solid K} {r : Resolution K} {mesh : Mesh K}
    (hrough : r.refinements = 0) (h : contour solid r = .ok mesh) :
    ∃ l, Lattice.around solid.bounds r.delta = .ok l ∧ mesh.vertices.Nodup ∧
      (∀ v, v ∈ mesh.vertices ↔ ∃ inner outer, l.Crossing solid inner outer ∧
        v = (l.point inner).midpoint (l.point outer)) ∧
      mesh.vertices.Perm ((l.crossingEdges solid).map l.edgeCenter) := by
  unfold contour at h
  obtain ⟨⟨l, rough⟩, hmesh, h⟩ := exists_of_bind_eq_ok h
  obtain ⟨hl, -, rfl⟩ := roughContour_eq_ok hmesh
  dsimp only at h
  rw [if_pos hrough] at h
  cases h
  obtain ⟨-, hd⟩ := Lattice.delta_of_around hl
  obtain ⟨hx, hy, hz⟩ := Lattice.three_le_of_around hl
  have hcount (axis : Axis) : 2 ≤ l.count axis := by
    cases axis <;> simp only [Lattice.count] <;> omega
  have hnodup : (Mesh.ofTriangles (l.directSurface solid)).vertices.Nodup :=
    .of_map _ (Mesh.nodup_key_vertices _)
  refine ⟨l, hl, hnodup, fun v => Mesh.mem_vertices_directSurface hcount, ?_⟩
  rw [List.perm_ext_iff_of_nodup hnodup (Lattice.nodup_map_edgeCenter hd solid)]
  exact fun v => (Mesh.mem_vertices_directSurface hcount).trans Lattice.mem_map_edgeCenter.symm

/-- The surface around a column of three lattice points crosses fourteen edges. -/
theorem column_vertices_are_crossings : ∃ mesh, contour column ⟨1, 0, 2⟩ = .ok mesh ∧
    mesh.vertices.Perm ((Window.tower.crossingEdges column).map Window.tower.edgeCenter) ∧
    mesh.vertices.length = 14 ∧ (⟨0, 0, 5 / 2⟩ : Vec3 ℚ) ∈ mesh.vertices := by
  have htower : Lattice.around column.bounds 1 = .ok Window.tower := by decide +kernel
  have hclean : Window.tower.firstStray? column 0 Window.tower.nz = none := by decide +kernel
  have hmesh : contour column ⟨1, 0, 2⟩ =
      .ok (.ofTriangles (Window.tower.directSurface column)) := by
    rw [contour, roughContour_eq (r := ⟨1, 0, 2⟩) htower (by decide) (by decide), Lattice.directSweep,
      hclean]
    rfl
  obtain ⟨l, hl, -, -, hperm⟩ := contour_vertices_are_crossings rfl hmesh
  obtain rfl : l = Window.tower := Except.ok.inj (hl.symm.trans htower)
  refine ⟨_, hmesh, hperm, hperm.length_eq.trans ?_, hperm.mem_iff.2 ?_⟩
  · decide +kernel
  · decide +kernel

end Isomesh
