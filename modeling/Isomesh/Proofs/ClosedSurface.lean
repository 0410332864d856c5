import Mathlib
import Isomesh.Mesh.Adjacency
import Isomesh.Proofs.CellSides
import Isomesh.Proofs.Exact

/-!
# Closed surfaces

A list of triangles is closed when each directed side occurs once and its reverse occurs too. The
surface in the cells of a lattice is closed, because exact arithmetic keeps the middles of different
lattice edges apart.

* `IsClosed.countP_corners`: on a closed surface two triangles meet at each side.
* `IsClosed.map`: moving the vertices apart from each other keeps a surface closed.
* `Lattice.isClosed_directSurface`: the main result.
-/

set_option autoImplicit false

namespace Isomesh

/-! ## Closed lists of triangles -/

/-- The sides of some triangles, each in the direction of its triangle. -/
def sidesOf {K : Type} (ts : List (Triangle K)) : List (Vec3 K × Vec3 K) := ts.flatMap Triangle.sides

/-- Whether each side occurs once in each direction. -/
structure IsClosed {K : Type} (ts : List (Triangle K)) : Prop where
  nodup : (sidesOf ts).Nodup
  ne : ∀ e ∈ sidesOf ts, e.1 ≠ e.2
  swap_mem : ∀ e ∈ sidesOf ts, e.swap ∈ sidesOf ts

section Count

variable {α β : Type}

/-- In a list without duplicates that comes from several parts each member is in one part. -/
theorem countP_of_nodup_flatMap {f : α → List β} {b : β} {holds : α → Bool}
    (hholds : ∀ a, holds a = true ↔ b ∈ f a) {as : List α} (h : (as.flatMap f).Nodup)
    (hb : b ∈ as.flatMap f) : as.countP holds = 1 := by
  induction as with
  | nil => simp at hb
  | cons a as ih =>
    rw [List.flatMap_cons, List.nodup_append] at h
    obtain ⟨_, hrest, hapart⟩ := h
    by_cases ha : b ∈ f a
    · have hnone : as.countP holds = 0 := by
        rw [List.countP_eq_zero]
        exact fun c hc hbc => hapart b ha b (List.mem_flatMap.2 ⟨c, hc, (hholds c).1 hbc⟩) rfl
      rw [List.countP_cons, hnone, if_pos ((hholds a).2 ha)]
    · rw [List.flatMap_cons, List.mem_append] at hb
      rw [List.countP_cons, if_neg fun hp => ha ((hholds a).1 hp), ih hrest (hb.resolve_left ha)]

/-- What holds in one of two ways, but not in both, is counted by these. -/
theorem countP_eq_add {p q r : α → Bool} {as : List α}
    (h : ∀ a ∈ as, (p a = true ↔ q a = true ∨ r a = true) ∧ ¬(q a = true ∧ r a = true)) :
    as.countP p = as.countP q + as.countP r := by
  induction as with
  | nil => rfl
  | cons a as ih =>
    obtain ⟨hor, hand⟩ := h a List.mem_cons_self
    rw [List.countP_cons, List.countP_cons, List.countP_cons,
      ih fun b hb => h b (List.mem_cons_of_mem a hb)]
    cases hq : q a <;> cases hr : r a <;> simp_all <;> omega

end Count

namespace Triangle

variable {K : Type}

/-- Different corners are joined by a side, in one direction or the other. -/
theorem mem_corners_iff (t : Triangle K) {p q : Vec3 K} (hpq : p ≠ q) :
    p ∈ t.corners ∧ q ∈ t.corners ↔ (p, q) ∈ t.sides ∨ (q, p) ∈ t.sides := by
  simp only [corners, sides, List.mem_cons, List.not_mem_nil, or_false, Prod.mk.injEq]
  grind

/-- A triangle with a side in both directions has a side without length. -/
theorem exists_of_both_sides {t : Triangle K} {p q : Vec3 K} (hpq : p ≠ q)
    (h : (p, q) ∈ t.sides) (h' : (q, p) ∈ t.sides) : ∃ e ∈ t.sides, e.1 = e.2 := by
  simp only [sides, List.mem_cons, List.not_mem_nil, or_false, Prod.mk.injEq, exists_eq_or_imp,
    exists_eq_left] at *
  grind

variable [Scalar K]

/-- Whether the triangle has a side from one point to another. -/
def hasSide (t : Triangle K) (p q : Vec3 K) : Bool :=
  t.sides.any fun e => e.1.key = p.key && e.2.key = q.key

end Triangle

/-- Moving vertices keeps a surface closed as long as no two of them meet. -/
theorem IsClosed.map {K : Type} {ts : List (Triangle K)} (h : IsClosed ts) {f : Vec3 K → Vec3 K}
    (hf : ∀ t ∈ ts, ∀ u ∈ ts, ∀ p ∈ t.corners, ∀ q ∈ u.corners, f p = f q → p = q) :
    IsClosed (ts.map (·.map f)) := by
  have hsides : sidesOf (ts.map (·.map f)) = (sidesOf ts).map (Prod.map f f) := by
    rw [sidesOf, sidesOf, List.flatMap_map, List.map_flatMap]
    rfl
  have hcorner {e : Vec3 K × Vec3 K} (he : e ∈ sidesOf ts) :
      ∃ t ∈ ts, e.1 ∈ t.corners ∧ e.2 ∈ t.corners := by
    obtain ⟨t, ht, he⟩ := List.mem_flatMap.1 he
    exact ⟨t, ht, (t.mem_corners_iff (h.ne e (List.mem_flatMap.2 ⟨t, ht, he⟩))).2 (.inl he)⟩
  refine ⟨?_, ?_, ?_⟩
  · rw [hsides]
    refine List.Nodup.map_on (fun e he e' he' heq => ?_) h.nodup
    obtain ⟨t, ht, h1, h2⟩ := hcorner he
    obtain ⟨u, hu, h1', h2'⟩ := hcorner he'
    obtain ⟨heq1, heq2⟩ := Prod.mk.injEq .. ▸ heq
    exact Prod.ext (hf t ht u hu _ h1 _ h1' heq1) (hf t ht u hu _ h2 _ h2' heq2)
  · rw [hsides, List.forall_mem_map]
    intro e he heq
    obtain ⟨t, ht, h1, h2⟩ := hcorner he
    exact h.ne e he (hf t ht t ht _ h1 _ h2 heq)
  · rw [hsides, List.forall_mem_map]
    exact fun e he => List.mem_map.2 ⟨e.swap, h.swap_mem e he, rfl⟩

/-! ## Exact coordinates -/

variable {K : Type} [Field K] [LinearOrder K] [IsStrictOrderedRing K] [FloorRing K] [SquareRoot K]

theorem Triangle.hasCorner_iff {t : Triangle K} {p : Vec3 K} :
    t.hasCorner p.key = true ↔ p ∈ t.corners := by
  rw [← t.mem_keys_iff_hasCorner, keys, List.mem_map]
  constructor
  · rintro ⟨q, hq, hkey⟩
    exact Exact.key_inj.1 hkey ▸ hq
  · exact fun hp => ⟨p, hp, rfl⟩

theorem Triangle.hasSide_iff {t : Triangle K} {p q : Vec3 K} :
    t.hasSide p q = true ↔ (p, q) ∈ t.sides := by
  simp only [hasSide, List.any_eq_true, Bool.and_eq_true, decide_eq_true_eq, Exact.key_inj]
  constructor
  · rintro ⟨⟨_, _⟩, he, rfl, rfl⟩
    exact he
  · exact fun h => ⟨_, h, rfl, rfl⟩

namespace IsClosed

variable {ts : List (Triangle K)} {p q : Vec3 K}

theorem countP_hasSide (h : IsClosed ts) (he : (p, q) ∈ sidesOf ts) :
    ts.countP (·.hasSide p q) = 1 :=
  countP_of_nodup_flatMap (fun _ => Triangle.hasSide_iff) h.nodup he

theorem countP_corners (h : IsClosed ts) (he : (p, q) ∈ sidesOf ts) :
    ts.countP (fun t => t.hasCorner p.key && t.hasCorner q.key) = 2 := by
  have hpq : p ≠ q := h.ne _ he
  have hsplit : ts.countP (fun t => t.hasCorner p.key && t.hasCorner q.key) =
      ts.countP (·.hasSide p q) + ts.countP (·.hasSide q p) := by
    refine countP_eq_add fun t ht => ⟨?_, ?_⟩
    · rw [Bool.and_eq_true, Triangle.hasCorner_iff, Triangle.hasCorner_iff, Triangle.hasSide_iff,
        Triangle.hasSide_iff]
      exact t.mem_corners_iff hpq
    · rw [Triangle.hasSide_iff, Triangle.hasSide_iff]
      rintro ⟨hforth, hback⟩
      obtain ⟨e, he', heq⟩ := Triangle.exists_of_both_sides hpq hforth hback
      exact h.ne e (List.mem_flatMap.2 ⟨t, ht, he'⟩) heq
  rw [hsplit, h.countP_hasSide he, h.countP_hasSide (h.swap_mem _ he)]

end IsClosed

/-! ## The surface in the cells of a lattice -/

namespace Lattice

variable {l : Lattice K} {solid : Solid K}

theorem mul_half_eq (x : K) : x * 0.5 = x / 2 := by
  norm_num
  ring

/-- The point with the given coordinates in halves of the lattice distance. -/
def halfPoint (l : Lattice K) (h : Vec3 Nat) : Vec3 K :=
  .ofFn fun axis => l.origin.get axis + h.get axis * (l.delta * 0.5)

theorem halfPoint_injective (hd : 0 < l.delta) : Function.Injective l.halfPoint := by
  intro g h heq
  refine Vec3.ext_get fun axis => ?_
  have hget := congrArg (Vec3.get · axis) heq
  simp only [halfPoint, Vec3.get_ofFn] at hget
  have hhalf : l.delta * 0.5 ≠ 0 := by
    rw [mul_half_eq]
    exact (half_pos hd).ne'
  exact Nat.cast_injective (mul_right_cancel₀ hhalf (add_left_cancel hget))

/-- Two lattice points at equal distances along an axis from the lowest corner of a cell. -/
theorem coord_add_mul_half (l : Lattice K) (axis : Axis) (i m n : Nat) :
    (l.coord axis (i + m) + l.coord axis (i + n)) * 0.5 =
      l.origin.get axis + ((2 * i + (m + n) : Nat) : K) * (l.delta * 0.5) := by
  rw [mul_half_eq, mul_half_eq]
  simp only [coord]
  push_cast
  ring

theorem edgeMidpoint_eq (l : Lattice K) (c : Cell) (e : CubeEdge) :
    l.edgeMidpoint c.1 c.2.1 c.2.2 e = l.halfPoint (c.half e.ends) := by
  refine Vec3.ext_get fun axis => ?_
  rw [halfPoint, Cell.half, Vec3.get_ofFn, Vec3.get_ofFn]
  cases axis
  · exact l.coord_add_mul_half .x c.1 e.a.x e.b.x
  · exact l.coord_add_mul_half .y c.2.1 e.a.y e.b.y
  · exact l.coord_add_mul_half .z c.2.2 e.a.z e.b.z

theorem exists_halfPoint {t : Triangle K} (ht : t ∈ l.directSurface solid) {p : Vec3 K}
    (hp : p ∈ t.corners) : ∃ h, p = l.halfPoint h := by
  obtain ⟨c, _, ht⟩ := List.mem_flatMap.1 ht
  obtain ⟨u, _, rfl⟩ := List.mem_map.1 ht
  simp only [placeTriangle, edgeMidpoint_eq, Triangle.corners, List.mem_cons, List.not_mem_nil,
    or_false] at hp
  rcases hp with rfl | rfl | rfl
  · exact ⟨_, rfl⟩
  · exact ⟨_, rfl⟩
  · exact ⟨_, rfl⟩

theorem sidesOf_directSurface (l : Lattice K) (solid : Solid K) :
    sidesOf (l.directSurface solid) =
      (l.halfSides solid).map (Prod.map l.halfPoint l.halfPoint) := by
  rw [sidesOf, directSurface, halfSides, List.flatMap_assoc, List.map_flatMap]
  refine List.flatMap_congr fun c _ => ?_
  rw [cellSurface, cellHalfSides, Stencil.sides, List.flatMap_map, List.map_flatMap, List.map_flatMap]
  refine List.flatMap_congr fun t _ => ?_
  simp only [Triangle.sides, placeTriangle, StencilTriangle.sides, edgeMidpoint_eq, List.map_cons,
    List.map_nil, Prod.map]

/-- **The surface in the cells is closed** if no border point of the lattice belongs to the solid. -/
theorem isClosed_directSurface (hd : 0 < l.delta) (hclean : ∀ k < l.nz, ¬l.HasStray solid k) :
    IsClosed (l.directSurface solid) := by
  have hinj := halfPoint_injective hd
  refine ⟨?_, ?_, ?_⟩
  · rw [sidesOf_directSurface]
    exact (l.nodup_halfSides solid).map (hinj.prodMap hinj)
  · rw [sidesOf_directSurface, List.forall_mem_map]
    exact fun e he heq => ne_of_mem_halfSides he (hinj heq)
  · rw [sidesOf_directSurface, List.forall_mem_map]
    exact fun e he => List.mem_map.2 ⟨e.swap, swap_mem_halfSides hclean he, rfl⟩

end Lattice

end Isomesh
