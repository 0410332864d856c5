import Isomesh.Lattice.Window
import Mathlib.Data.List.Basic

/-!
# Planes of lattice points

The points of some planes of a lattice, in the order in which they are sampled, and what a sample
of them contains.

* `Lattice.three_le_of_around`: an accepted lattice has three points or more along each axis.
* `Window.sample_add`: the sample of neighbouring planes is put together from their samples.
* `Window.getD_sample`: a sample holds at each place the membership of the point of that place.
* `Window.strayPoint_sample`: the search of a sample finds the first border point of its planes that
  belongs to the solid, planes from below, rows in a plane, points in a row.
-/

set_option autoImplicit false

namespace Isomesh

variable {K : Type}

/-! ## The points of some planes -/

/-- The points of `count` planes from plane `first` on: planes from below, rows in a plane, points
in a row. -/
def Lattice.points (l : Lattice K) (first count : Nat) : List (Nat × Nat × Nat) :=
  (List.range count).flatMap fun q =>
    (List.range l.ny).flatMap fun j => (List.range l.nx).map fun i => (i, j, first + q)

theorem Lattice.mem_points {l : Lattice K} {first count i j k : Nat} :
    (i, j, k) ∈ l.points first count ↔ i < l.nx ∧ j < l.ny ∧ first ≤ k ∧ k < first + count := by
  simp only [points, List.mem_flatMap, List.mem_map, List.mem_range, Prod.mk.injEq]
  constructor
  · rintro ⟨q, hq, j', hj, i', hi, rfl, rfl, rfl⟩
    omega
  · rintro ⟨hi, hj, hk, hk'⟩
    exact ⟨k - first, by omega, j, hj, i, hi, rfl, rfl, by omega⟩

theorem Lattice.points_add (l : Lattice K) (first a b : Nat) :
    l.points first (a + b) = l.points first a ++ l.points (first + a) b := by
  simp only [points, List.range_add, List.flatMap_append, List.flatMap_map, Nat.add_assoc]

namespace Window

/-- The numbers below a product, block by block. -/
theorem range_mul (a b : Nat) :
    List.range (a * b) = (List.range a).flatMap fun q => (List.range b).map fun r => q * b + r := by
  induction a with
  | zero => simp
  | succ a ih =>
    rw [Nat.succ_mul, List.range_add, ih, List.range_succ, List.flatMap_append]
    simp

theorem place_position (l : Lattice K) {first i j q : Nat} (hi : i < l.nx) (hj : j < l.ny) :
    place l first ((q * l.ny + j) * l.nx + i) = (i, j, first + q) := by
  have hrow : ((q * l.ny + j) * l.nx + i) / l.nx = q * l.ny + j := by
    rw [Nat.mul_comm, Nat.mul_add_div (by omega), Nat.div_eq_of_lt hi, Nat.add_zero]
  have hplane : (q * l.ny + j) / l.ny = q := by
    rw [Nat.mul_comm, Nat.mul_add_div (by omega), Nat.div_eq_of_lt hj, Nat.add_zero]
  have hi' : ((q * l.ny + j) * l.nx + i) % l.nx = i := by
    rw [Nat.mul_comm, Nat.mul_add_mod, Nat.mod_eq_of_lt hi]
  have hj' : (q * l.ny + j) % l.ny = j := by
    rw [Nat.mul_comm, Nat.mul_add_mod, Nat.mod_eq_of_lt hj]
  rw [place, hi', hrow, hj', ← Nat.div_div_eq_div_mul, hrow, hplane]

/-- The number of a point is that of a value in a sample of enough planes. -/
theorem position_lt (l : Lattice K) {count i j q : Nat} (hi : i < l.nx) (hj : j < l.ny)
    (hq : q < count) : (q * l.ny + j) * l.nx + i < count * (l.nx * l.ny) := by
  calc (q * l.ny + j) * l.nx + i < (q * l.ny + j) * l.nx + l.nx := by omega
    _ = (q * l.ny + j + 1) * l.nx := by rw [Nat.succ_mul]
    _ ≤ ((q + 1) * l.ny) * l.nx := Nat.mul_le_mul_right _ (by rw [Nat.succ_mul]; omega)
    _ = (q + 1) * (l.nx * l.ny) := by rw [Nat.mul_assoc, Nat.mul_comm l.ny]
    _ ≤ count * (l.nx * l.ny) := Nat.mul_le_mul_right _ hq

/-- Going through a sample is going through its points in order. -/
theorem map_place (l : Lattice K) (first count : Nat) :
    (List.range (count * (l.nx * l.ny))).map (place l first) = l.points first count := by
  rw [range_mul, List.map_flatMap, Lattice.points]
  refine List.flatMap_congr fun q _ => ?_
  rw [Nat.mul_comm l.nx l.ny, range_mul, List.map_map, List.map_flatMap]
  refine List.flatMap_congr fun j hj => ?_
  rw [List.map_map]
  refine List.map_congr_left fun i hi => ?_
  have hnumber : q * (l.ny * l.nx) + (j * l.nx + i) = (q * l.ny + j) * l.nx + i := by
    rw [Nat.add_mul, Nat.mul_assoc, Nat.add_assoc]
  show place l first (q * (l.ny * l.nx) + (j * l.nx + i)) = (i, j, first + q)
  rw [hnumber, place_position l (List.mem_range.1 hi) (List.mem_range.1 hj)]

end Window

/-! ## Accepted lattices -/

/-- A computation that does not fail has parts that do not fail. -/
theorem exists_of_bind_eq_ok {ε α β : Type} {x : Except ε α} {f : α → Except ε β} {b : β}
    (h : x >>= f = .ok b) : ∃ a, x = .ok a ∧ f a = .ok b := by
  cases x with
  | error e => cases h
  | ok a => exact ⟨a, rfl, h⟩

namespace Lattice

variable [Scalar K]

theorem three_le_of_countAlong {box : Bounds K} {delta : K} {axis : Axis} {n : Nat}
    (h : countAlong box delta axis = .ok n) : 3 ≤ n := by
  unfold countAlong at h
  simp only at h
  split at h
  · cases h
  · split at h
    · cases h
    · split at h
      · cases h
        omega
      · cases h

/-- What the lattice over a box is, once it has been accepted. -/
theorem around_spec {box : Bounds K} {delta : K} {l : Lattice K} (h : around box delta = .ok l) :
    isCellSize delta = true ∧ l.delta = delta ∧ l.origin = (box.lo.map fun c => c - delta) ∧
      countAlong box delta .x = .ok l.nx ∧ countAlong box delta .y = .ok l.ny ∧
      countAlong box delta .z = .ok l.nz := by
  unfold around at h
  split at h
  · cases h
  · rename_i hs
    obtain ⟨nx, hx, h⟩ := exists_of_bind_eq_ok h
    obtain ⟨ny, hy, h⟩ := exists_of_bind_eq_ok h
    obtain ⟨nz, hz, h⟩ := exists_of_bind_eq_ok h
    split at h
    · cases h
    · cases h
      exact ⟨by simpa using hs, rfl, rfl, hx, hy, hz⟩

/-- An accepted cell size is positive. -/
theorem delta_of_around {box : Bounds K} {delta : K} {l : Lattice K} (h : around box delta = .ok l) :
    l.delta = delta ∧ 0 < l.delta := by
  obtain ⟨hsize, hdelta, -⟩ := around_spec h
  rw [isCellSize, Bool.and_eq_true, decide_eq_true_eq] at hsize
  rw [hdelta]
  exact ⟨rfl, hsize.2⟩

theorem three_le_of_around {box : Bounds K} {delta : K} {l : Lattice K}
    (h : around box delta = .ok l) : 3 ≤ l.nx ∧ 3 ≤ l.ny ∧ 3 ≤ l.nz := by
  obtain ⟨_, _, _, hx, hy, hz⟩ := around_spec h
  exact ⟨three_le_of_countAlong hx, three_le_of_countAlong hy, three_le_of_countAlong hz⟩

/-! ## Stray points -/

/-- A point of the lattice, if it is on the border and belongs to the solid. -/
def stray? (l : Lattice K) (solid : Solid K) (p : Nat × Nat × Nat) : Option (Vec3 K) :=
  let corner := l.corner p.1 p.2.1 p.2.2
  if solid.contains corner && l.isBorder p.1 p.2.1 p.2.2 then some corner else none

/-- The first border point of some planes that belongs to the solid. -/
def firstStray? (l : Lattice K) (solid : Solid K) (first count : Nat) : Option (Vec3 K) :=
  (l.points first count).findSome? (l.stray? solid)

theorem firstStray?_add (l : Lattice K) (solid : Solid K) (first a b : Nat) :
    l.firstStray? solid first (a + b) =
      (l.firstStray? solid first a).or (l.firstStray? solid (first + a) b) := by
  simp only [firstStray?, points_add, List.findSome?_append]

/-- Whether a border point of plane `k` belongs to the solid. -/
def HasStray (l : Lattice K) (solid : Solid K) (k : Nat) : Prop :=
  ∃ i j, i < l.nx ∧ j < l.ny ∧ l.isBorder i j k = true ∧ solid.contains (l.corner i j k) = true

theorem firstStray?_eq_none_iff {l : Lattice K} {solid : Solid K} {first count : Nat} :
    l.firstStray? solid first count = none ↔
      ∀ k, first ≤ k → k < first + count → ¬l.HasStray solid k := by
  simp only [firstStray?, List.findSome?_eq_none_iff, stray?, ite_eq_right_iff, reduceCtorEq,
    imp_false, Bool.and_eq_true]
  constructor
  · rintro h k hk hk' ⟨i, j, hi, hj, hb, hc⟩
    exact h (i, j, k) (mem_points.2 ⟨hi, hj, hk, hk'⟩) ⟨hc, hb⟩
  · rintro h ⟨i, j, k⟩ hp ⟨hc, hb⟩
    obtain ⟨hi, hj, hk, hk'⟩ := mem_points.1 hp
    exact h k hk hk' ⟨i, j, hi, hj, hb, hc⟩

/-- What is found is a border point of one of the planes and belongs to the solid. -/
theorem firstStray?_eq_some {l : Lattice K} {solid : Solid K} {first count : Nat} {p : Vec3 K}
    (h : l.firstStray? solid first count = some p) :
    ∃ i j k, i < l.nx ∧ j < l.ny ∧ first ≤ k ∧ k < first + count ∧ l.isBorder i j k = true ∧
      solid.contains (l.corner i j k) = true ∧ p = l.corner i j k := by
  obtain ⟨⟨i, j, k⟩, hp, hs⟩ := List.exists_of_findSome?_eq_some h
  obtain ⟨hi, hj, hk, hk'⟩ := mem_points.1 hp
  simp only [stray?] at hs
  split at hs
  · rename_i hc
    simp only [Bool.and_eq_true] at hc
    cases hs
    exact ⟨i, j, k, hi, hj, hk, hk', hc.2, hc.1, rfl⟩
  · cases hs

/-- The first stray point above some planes without any is the first of all. -/
theorem firstStray?_of_clean {l : Lattice K} {solid : Solid K} {first count top : Nat} {p : Vec3 K}
    (hclean : ∀ k < first, ¬l.HasStray solid k) (htop : first + count ≤ top)
    (h : l.firstStray? solid first count = some p) : l.firstStray? solid 0 top = some p := by
  have hbelow : l.firstStray? solid 0 first = none :=
    firstStray?_eq_none_iff.2 fun k _ hk => hclean k (by omega)
  obtain ⟨rest, hrest⟩ : ∃ rest, top = first + (count + rest) := ⟨top - first - count, by omega⟩
  rw [hrest, firstStray?_add, hbelow, Nat.zero_add, firstStray?_add, h]
  rfl

end Lattice

/-! ## Samples -/

namespace Window

variable [Scalar K]

open Isomesh.Lattice

theorem size_sample (solid : Solid K) (l : Lattice K) (first count : Nat) :
    (sample solid l first count).size = count * (l.nx * l.ny) := by
  simp [sample]

theorem sample_zero (solid : Solid K) (l : Lattice K) (first : Nat) :
    sample solid l first 0 = #[] := by
  apply Array.eq_empty_of_size_eq_zero
  rw [size_sample, Nat.zero_mul]

theorem toList_sample (solid : Solid K) (l : Lattice K) (first count : Nat) :
    (sample solid l first count).toList =
      (l.points first count).map fun p => solid.contains (l.corner p.1 p.2.1 p.2.2) := by
  rw [← map_place, List.map_map]
  apply List.ext_getElem
  · simp [sample]
  · intro n h _
    simp [sample]

theorem sample_add (solid : Solid K) (l : Lattice K) (first a b : Nat) :
    sample solid l first (a + b) = sample solid l first a ++ sample solid l (first + a) b := by
  apply Array.ext'
  rw [Array.toList_append, toList_sample, toList_sample, toList_sample, points_add, List.map_append]

theorem extract_sample_upper (solid : Solid K) (l : Lattice K) (first a b : Nat) :
    (sample solid l first (a + b)).extract (a * (l.nx * l.ny)) = sample solid l (first + a) b := by
  have hs : a * (l.nx * l.ny) = (sample solid l first a).size := (size_sample ..).symm
  have he : (sample solid l first (a + b)).size =
      (sample solid l first a).size + (sample solid l (first + a) b).size := by
    rw [sample_add, Array.size_append]
  rw [he, sample_add, hs, Array.extract_append_right, Array.extract_size]

theorem extract_sample_lower (solid : Solid K) (l : Lattice K) (first a b : Nat) :
    (sample solid l first (a + b)).extract 0 (a * (l.nx * l.ny)) = sample solid l first a := by
  have hs : a * (l.nx * l.ny) = (sample solid l first a).size := (size_sample ..).symm
  rw [sample_add, hs, Array.extract_append_left, Array.extract_size]

theorem getD_sample_of_lt (solid : Solid K) (l : Lattice K) {first count n : Nat}
    (hn : n < count * (l.nx * l.ny)) :
    (sample solid l first count).getD n false =
      solid.contains (l.corner (place l first n).1 (place l first n).2.1 (place l first n).2.2) := by
  rw [Array.getD_eq_getD_getElem?, sample, Array.getElem?_ofFn, dif_pos hn]
  rfl

/-- A sample holds the membership of each of its points. -/
theorem getD_sample (solid : Solid K) (l : Lattice K) {first count i j q : Nat} (hi : i < l.nx)
    (hj : j < l.ny) (hq : q < count) :
    (sample solid l first count).getD ((q * l.ny + j) * l.nx + i) false =
      solid.contains (l.corner i j (first + q)) := by
  rw [getD_sample_of_lt solid l (position_lt l hi hj hq), place_position l hi hj]

/-- **What the search of a sample finds**: the first border point of its planes that belongs to the
solid. -/
theorem strayPoint_sample (solid : Solid K) (l : Lattice K) (first count : Nat) :
    strayPoint l first (sample solid l first count) = l.firstStray? solid first count := by
  have hid : ∀ (ns : List Nat) (f : Nat → Option (Vec3 K)),
      ns.findSome? f = (ns.map f).findSome? id := by
    intro ns f
    rw [List.findSome?_map]
    rfl
  unfold strayPoint firstStray?
  rw [size_sample, ← map_place, List.findSome?_map, hid, hid _ (l.stray? solid ∘ place l first)]
  congr 1
  refine List.map_congr_left fun n hn => ?_
  rw [getD_sample_of_lt solid l (List.mem_range.1 hn)]
  rfl

/-- The outcome of a border check, by the first stray point. -/
def verdict : Option (Vec3 K) → Except (Error K) Unit
  | some p => .error (.solidOutsideBounds p)
  | none => .ok ()

theorem checkBorder_sample (solid : Solid K) (l : Lattice K) (first count : Nat) :
    checkBorder l first (sample solid l first count) = verdict (l.firstStray? solid first count) := by
  rw [checkBorder, strayPoint_sample]
  rfl

end Window

end Isomesh
