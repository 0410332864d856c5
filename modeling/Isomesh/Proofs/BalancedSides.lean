import Mathlib
import Isomesh.Proofs.PulledTriangles

/-!
# Balanced surfaces

A surface is balanced when its triangles traverse every directed edge as often as its reverse. Vertices
may coincide, edges may belong to any number of triangles, and triangles may be degenerate. A vertex map
keeps a surface balanced, whatever vertices it identifies. A triangle in which it identifies two corners
is balanced on its own, so dropping it does no harm. A collapse is just that: the vertex map that takes
both ends of an edge to the midpoint, without the triangles at both ends.

* `IsBalanced.map`: pairs under a map.
* `IsBalanced.sum_eq_zero`: what changes its sign with the direction cancels out.
* `Mesh.Coherent.perm_map_contract`: a collapse as a vertex map.
* `Mesh.Coherent.balanced_collapse`: a collapse keeps a surface balanced.
-/

set_option autoImplicit false

namespace Isomesh

/-! ## Balanced lists of pairs -/

section Pairs

variable {κ : Type} [DecidableEq κ]

/-- Whether every pair occurs as often as the reversed pair. -/
def IsBalanced (es : List (κ × κ)) : Prop := ∀ k l, es.count (k, l) = es.count (l, k)

variable {es fs : List (κ × κ)}

theorem isBalanced_iff_perm : IsBalanced es ↔ es.Perm (es.map Prod.swap) := by
  have hcount (k l : κ) : (es.map Prod.swap).count (k, l) = es.count (l, k) :=
    List.count_map_of_injective es Prod.swap Prod.swap_injective (l, k)
  rw [List.perm_iff_count]
  exact ⟨fun h e => (h e.1 e.2).trans (hcount e.1 e.2).symm, fun h k l =>
    (h (k, l)).trans (hcount k l)⟩

theorem IsBalanced.of_perm (h : IsBalanced es) (hperm : es.Perm fs) : IsBalanced fs := fun k l => by
  rw [← hperm.count_eq, ← hperm.count_eq, h k l]

theorem isBalanced_append_iff (h : IsBalanced fs) : IsBalanced (es ++ fs) ↔ IsBalanced es := by
  refine forall₂_congr fun k l => ?_
  rw [List.count_append, List.count_append, h k l, Nat.add_right_cancel_iff]

theorem IsBalanced.append (he : IsBalanced es) (hf : IsBalanced fs) : IsBalanced (es ++ fs) :=
  (isBalanced_append_iff hf).2 he

/-- Pairs stay balanced under a map, whatever it identifies. -/
theorem IsBalanced.map {μ : Type} [DecidableEq μ] (h : IsBalanced es) (f : κ → μ) :
    IsBalanced (es.map (Prod.map f f)) := by
  rw [isBalanced_iff_perm] at h ⊢
  have hswap : Prod.swap ∘ Prod.map f f = Prod.map f f ∘ Prod.swap := rfl
  rw [List.map_map, hswap, ← List.map_map]
  exact h.map (Prod.map f f)

/-- What changes its sign with the direction cancels out. -/
theorem IsBalanced.sum_eq_zero {R : Type} [AddCommGroup R] [LinearOrder R] [IsOrderedAddMonoid R]
    (h : IsBalanced es) {g : κ → κ → R} (hg : ∀ k l, g l k = -g k l) :
    (es.map fun e => g e.1 e.2).sum = 0 := by
  have hsum := ((isBalanced_iff_perm.1 h).map fun e => g e.1 e.2).sum_eq
  have hneg : ((es.map Prod.swap).map fun e => g e.1 e.2).sum = -(es.map fun e => g e.1 e.2).sum := by
    rw [List.sum_neg, List.map_map, List.map_map]
    exact congrArg List.sum (List.map_congr_left fun e _ => hg e.1 e.2)
  rw [hneg] at hsum
  exact self_eq_neg.1 hsum

end Pairs

/-! ## Directed edges -/

section Edges

variable {K : Type} [Scalar K]

/-- The directed edges of some triangles, as often as they are traversed. -/
def halfEdges (ts : List (Triangle K)) : List (VertexKey K × VertexKey K) :=
  (sidesOf ts).map (Prod.map Vec3.key Vec3.key)

/-- Whether every directed edge is traversed as often as its reverse. -/
def Balanced (ts : List (Triangle K)) : Prop := IsBalanced (halfEdges ts)

variable {ts us : List (Triangle K)}

theorem halfEdges_append (ts us : List (Triangle K)) :
    halfEdges (ts ++ us) = halfEdges ts ++ halfEdges us := by
  simp [halfEdges, sidesOf]

theorem Balanced.of_perm (h : Balanced ts) (hperm : ts.Perm us) : Balanced us :=
  IsBalanced.of_perm h ((hperm.flatMap_right Triangle.sides).map _)

theorem sidesOf_map {L : Type} (f : Vec3 L → Vec3 L) (ts : List (Triangle L)) :
    sidesOf (ts.map (·.map f)) = (sidesOf ts).map (Prod.map f f) := by
  rw [sidesOf, sidesOf, List.flatMap_map, List.map_flatMap]
  rfl

/-- A vertex map keeps a surface balanced, whatever vertices it identifies. -/
theorem Balanced.map (h : Balanced ts) {f : Vec3 K → Vec3 K} {g : VertexKey K → VertexKey K}
    (hf : ∀ p, (f p).key = g p.key) : Balanced (ts.map (·.map f)) := by
  have hkeys : Prod.map Vec3.key Vec3.key ∘ Prod.map f f =
      Prod.map g g ∘ Prod.map (Vec3.key (K := K)) Vec3.key := by
    funext e
    exact Prod.ext (hf e.1) (hf e.2)
  have hedges : halfEdges (ts.map (·.map f)) = (halfEdges ts).map (Prod.map g g) := by
    rw [halfEdges, halfEdges, sidesOf_map, List.map_map, List.map_map, hkeys]
  rw [Balanced, hedges]
  exact IsBalanced.map h g

theorem Triangle.nodup_keys_iff {t : Triangle K} :
    t.keys.Nodup ↔ t.a.key ≠ t.b.key ∧ t.a.key ≠ t.c.key ∧ t.b.key ≠ t.c.key := by
  simp [keys, corners, and_assoc]

/-- Triangles with two equal corners are balanced on their own. -/
theorem balanced_of_not_nodup (h : ∀ t ∈ ts, ¬t.keys.Nodup) : Balanced ts := by
  induction ts with
  | nil => exact fun k l => rfl
  | cons t ts ih =>
    obtain ⟨ht, hts⟩ := List.forall_mem_cons.1 h
    have hself : IsBalanced (halfEdges [t]) := by
      intro k l
      rw [Triangle.nodup_keys_iff] at ht
      simp only [halfEdges, sidesOf, List.flatMap_cons, List.flatMap_nil, Triangle.sides,
        List.append_nil, List.map_cons, List.map_nil, Prod.map_apply, List.count_cons,
        List.count_nil, beq_iff_eq, Prod.mk.injEq]
      grind
    rw [Balanced, ← List.singleton_append, halfEdges_append]
    exact hself.append (ih hts)

end Edges

/-! ## Contractions -/

section Contractions

variable {K : Type} [Scalar K] {s : Segment K} {t : Triangle K}

/-- Takes both ends of an edge to its midpoint. -/
def Segment.contract (s : Segment K) (p : Vec3 K) : Vec3 K := if s.hasEnd p.key then s.mid else p

theorem Segment.key_contract (s : Segment K) (p : Vec3 K) :
    (s.contract p).key = if s.hasEnd p.key then s.mid.key else p.key := by
  unfold contract
  split <;> rfl

namespace Triangle

theorem hasEnd_of_mem_corners (h : t.atEnd s = false) {p : Vec3 K} (hp : p ∈ t.corners) :
    s.hasEnd p.key = false := by
  have hkey : p.key ∈ t.keys := List.mem_map_of_mem hp
  rw [atEnd, Bool.or_eq_false_iff, ← Bool.not_eq_true, ← Bool.not_eq_true,
    ← mem_keys_iff_hasCorner, ← mem_keys_iff_hasCorner] at h
  rw [Segment.hasEnd, Bool.or_eq_false_iff, decide_eq_false_iff_not, decide_eq_false_iff_not]
  exact ⟨fun heq => h.1 (heq ▸ hkey), fun heq => h.2 (heq ▸ hkey)⟩

/-- A triangle at neither end stays. -/
theorem map_contract_of_not_atEnd (h : t.atEnd s = false) : t.map s.contract = t := by
  have hstay {p : Vec3 K} (hp : p ∈ t.corners) : s.contract p = p :=
    if_neg (Bool.not_eq_true _ ▸ hasEnd_of_mem_corners h hp)
  obtain ⟨a, b, c⟩ := t
  rw [map, hstay (by simp [corners]), hstay (by simp [corners]), hstay (by simp [corners])]

/-- A triangle at one end is pulled to the midpoint. -/
theorem map_contract_of_atOne (hone : t.atOne s = true) (hnodup : t.keys.Nodup) :
    t.map s.contract = t.pull s := by
  rw [nodup_keys_iff] at hnodup
  simp only [atOne, atEnd, atBoth, hasCorner, placeOf] at hone
  simp only [pull, map, Segment.contract, Segment.hasEnd, placeOf]
  grind [replace]

/-- In a triangle at both ends two corners meet. -/
theorem not_nodup_map_contract (hne : s.lo.key ≠ s.hi.key) (hboth : t.atBoth s = true) :
    ¬(t.map s.contract).keys.Nodup := by
  simp only [atBoth, Bool.and_eq_true, ← mem_keys_iff_hasCorner, keys, corners, List.map_cons,
    List.map_nil, List.mem_cons, List.not_mem_nil, or_false] at hboth
  simp only [nodup_keys_iff, map, Segment.key_contract, Segment.hasEnd]
  grind

end Triangle

namespace Mesh.Coherent

variable {m : Mesh K}

/-- The triangles after a collapse, up to their order. -/
theorem perm_collapse (h : m.Coherent) (s : Segment K) (waiting : EdgeSet K) :
    (m.collapse s waiting).mesh.triangles.Perm ((m.triangles.filter fun t => !t.atEnd s) ++
      (m.triangles.filter (Triangle.atOne s)).map (Triangle.pull s)) := by
  classical
  rw [List.perm_iff_count]
  intro t
  simp only [List.count_eq_countP, List.countP_append, h.countP_collapse, List.countP_map,
    List.countP_filter, Function.comp_apply, Triangle.atOne]
  congr 1 <;> refine List.countP_congr fun u _ => ?_ <;>
    cases u.atEnd s <;> cases u.atBoth s <;> simp

/-- **A collapse is a vertex map** of the triangles that are not at both ends. -/
theorem perm_map_contract (h : m.Coherent) {s : Segment K} (waiting : EdgeSet K)
    (hstar : ∀ t ∈ m.triangles, t.atEnd s = true → t.keys.Nodup) :
    (m.collapse s waiting).mesh.triangles.Perm
      ((m.triangles.filter fun t => !t.atBoth s).map (·.map s.contract)) := by
  have haway : (m.triangles.filter fun t => !t.atBoth s).filter (fun t => !t.atEnd s) =
      m.triangles.filter fun t => !t.atEnd s := by
    rw [List.filter_filter]
    refine List.filter_congr fun t _ => ?_
    simp only [Triangle.atBoth, Triangle.atEnd]
    cases t.hasCorner s.lo.key <;> simp
  have hone : (m.triangles.filter fun t => !t.atBoth s).filter (fun t => !!t.atEnd s) =
      m.triangles.filter (Triangle.atOne s) := by
    rw [List.filter_filter]
    exact List.filter_congr fun t _ => by rw [Bool.not_not, Triangle.atOne]
  have hstay : (m.triangles.filter fun t => !t.atEnd s).map (·.map s.contract) =
      m.triangles.filter fun t => !t.atEnd s := by
    refine (List.map_congr_left fun t ht => ?_).trans (List.map_id _)
    exact Triangle.map_contract_of_not_atEnd (by simpa using (List.mem_filter.1 ht).2)
  have hpull : (m.triangles.filter (Triangle.atOne s)).map (·.map s.contract) =
      (m.triangles.filter (Triangle.atOne s)).map (Triangle.pull s) := by
    refine List.map_congr_left fun t ht => ?_
    obtain ⟨ht, hone⟩ := List.mem_filter.1 ht
    exact Triangle.map_contract_of_atOne hone (hstar t ht (Bool.and_eq_true .. ▸ hone : _ ∧ _).1)
  have hsplit := (List.filter_append_perm (fun t : Triangle K => !t.atEnd s)
    (m.triangles.filter fun t => !t.atBoth s)).map (·.map s.contract)
  rw [haway, hone, List.map_append, hstay, hpull] at hsplit
  exact (h.perm_collapse s waiting).trans hsplit

/-- The vertex map of all triangles, with those in which it identifies corners. -/
theorem perm_contract (h : m.Coherent) {s : Segment K} (waiting : EdgeSet K)
    (hstar : ∀ t ∈ m.triangles, t.atEnd s = true → t.keys.Nodup) :
    (m.triangles.map (·.map s.contract)).Perm ((m.collapse s waiting).mesh.triangles ++
      (m.triangles.filter (Triangle.atBoth s)).map (·.map s.contract)) := by
  have hsplit := (List.filter_append_perm (Triangle.atBoth s) m.triangles).map (·.map s.contract)
  rw [List.map_append] at hsplit
  exact hsplit.symm.trans (List.perm_append_comm.trans
    ((h.perm_map_contract waiting hstar).symm.append_right _))

/-- **A collapse keeps a surface balanced** if the corners of each triangle at the edge are apart. -/
theorem balanced_collapse (h : m.Coherent) {s : Segment K} (waiting : EdgeSet K)
    (hne : s.lo.key ≠ s.hi.key)
    (hstar : ∀ t ∈ m.triangles, t.atEnd s = true → t.keys.Nodup) (hbalanced : Balanced m.triangles) :
    Balanced (m.collapse s waiting).mesh.triangles := by
  have hmap : Balanced (m.triangles.map (·.map s.contract)) :=
    hbalanced.map (g := fun k => if s.hasEnd k then s.mid.key else k) s.key_contract
  have hsplit := hmap.of_perm (h.perm_contract waiting hstar)
  rw [Balanced, halfEdges_append] at hsplit
  refine (isBalanced_append_iff (balanced_of_not_nodup ?_)).1 hsplit
  intro t ht
  obtain ⟨u, hu, rfl⟩ := List.mem_map.1 ht
  exact Triangle.not_nodup_map_contract hne (List.mem_filter.1 hu).2

end Mesh.Coherent

end Contractions

end Isomesh
