import Mathlib
import Isomesh.Proofs.BalancedSides

/-!
# The signed volume of a surface

The volume that a surface encloses is the sum of the signed volumes of the cones from the origin over
its triangles. On a balanced surface the area normals cancel out, so the volume does not depend on the
origin, and corners can be moved within a plane without changing it.

* `Balanced.sum_dot_areaNormal`: the area normals of a balanced surface add up to zero.
* `sixfoldVolume_map_of_plane`: moving vertices within a plane keeps the volume.
-/

set_option autoImplicit false

namespace Isomesh

variable {K : Type} [Field K] [LinearOrder K] [IsStrictOrderedRing K] [FloorRing K] [SquareRoot K]

/-- The triple product of the corners, six times the volume of the cone from the origin. -/
def Triangle.triple (t : Triangle K) : K := t.a.dot (t.b.cross t.c)

/-- Six times the signed volume. -/
def sixfoldVolume (ts : List (Triangle K)) : K := (ts.map Triangle.triple).sum

theorem sixfoldVolume_append (ts us : List (Triangle K)) :
    sixfoldVolume (ts ++ us) = sixfoldVolume ts + sixfoldVolume us := by
  rw [sixfoldVolume, List.map_append, List.sum_append]
  rfl

theorem sixfoldVolume_perm {ts us : List (Triangle K)} (h : ts.Perm us) :
    sixfoldVolume ts = sixfoldVolume us := (h.map Triangle.triple).sum_eq

/-! ## Single triangles -/

namespace Triangle

variable {t : Triangle K} {n : Vec3 K}

/-- Two equal corners lie on a line with the origin. -/
theorem triple_eq_zero (h : ¬t.keys.Nodup) : t.triple = 0 := by
  simp only [nodup_keys_iff, Exact.key_inj, ne_eq, not_and_or, not_not] at h
  rcases h with h | h | h <;> simp only [triple, Vec3.dot, Vec3.cross, h] <;> ring

theorem dot_areaNormal (t : Triangle K) (n : Vec3 K) :
    n.dot t.areaNormal = (t.sides.map fun e => n.dot (e.1.cross e.2)).sum := by
  simp only [areaNormal, sides, Vec3.dot, Vec3.cross, Vec3.sub_def, List.map_cons, List.map_nil,
    List.sum_cons, List.sum_nil]
  ring

/-- In a plane the triple product is the distance from the origin times the area normal. -/
theorem triple_mul_normSq {d : K} (h : ∀ p ∈ t.corners, n.dot p = d) :
    t.triple * n.normSq = d * n.dot t.areaNormal := by
  obtain ⟨a, b, c⟩ := t
  simp only [corners, List.forall_mem_cons] at h
  obtain ⟨ha, hb, hc, -⟩ := h
  have hb' : n.dot (b - a) = 0 := by
    simp only [Vec3.dot, Vec3.sub_def] at ha hb ⊢
    linear_combination hb - ha
  have hc' : n.dot (c - a) = 0 := by
    simp only [Vec3.dot, Vec3.sub_def] at ha hc ⊢
    linear_combination hc - ha
  -- the area normal is a multiple of `n`: their cross product vanishes
  have hcross : triple ⟨a, b, c⟩ * n.normSq - n.dot a * n.dot (areaNormal ⟨a, b, c⟩) =
      (a.cross n).dot (c - a) * n.dot (b - a) - (a.cross n).dot (b - a) * n.dot (c - a) := by
    simp only [triple, areaNormal, Vec3.normSq, Vec3.dot, Vec3.cross, Vec3.sub_def]
    ring
  rw [hb', hc', ha, mul_zero, mul_zero, sub_zero, sub_eq_zero] at hcross
  exact hcross

end Triangle

variable {ts : List (Triangle K)}

theorem sixfoldVolume_of_not_nodup (h : ∀ t ∈ ts, ¬t.keys.Nodup) : sixfoldVolume ts = 0 :=
  List.sum_eq_zero (List.forall_mem_map.2 fun t ht => Triangle.triple_eq_zero (h t ht))

/-! ## Balanced surfaces -/

theorem Balanced.isBalanced_sidesOf (h : Balanced ts) : IsBalanced (sidesOf ts) := by
  have hmap := IsBalanced.map h fun k : VertexKey K => (⟨k.x, k.y, k.z⟩ : Vec3 K)
  rw [halfEdges, List.map_map] at hmap
  exact (List.map_id (sidesOf ts)) ▸ hmap

/-- With exact scalars any function on points is one on keys. -/
theorem Balanced.map_exact (h : Balanced ts) (f : Vec3 K → Vec3 K) : Balanced (ts.map (·.map f)) :=
  h.map (g := fun k => (f ⟨k.x, k.y, k.z⟩).key) fun _ => rfl

/-- The area normals of some triangles, by their sides. -/
theorem sum_dot_areaNormal_eq (ts : List (Triangle K)) (n : Vec3 K) :
    (ts.map fun t => n.dot t.areaNormal).sum =
      ((sidesOf ts).map fun e => n.dot (e.1.cross e.2)).sum := by
  induction ts with
  | nil => rfl
  | cons t ts ih =>
    rw [List.map_cons, List.sum_cons, ih, t.dot_areaNormal, ← List.sum_append, ← List.map_append]
    rfl

/-- **The area normals of a balanced surface add up to zero.** -/
theorem Balanced.sum_dot_areaNormal (h : Balanced ts) (n : Vec3 K) :
    (ts.map fun t => n.dot t.areaNormal).sum = 0 := by
  rw [sum_dot_areaNormal_eq]
  refine h.isBalanced_sidesOf.sum_eq_zero (g := fun p q => n.dot (p.cross q)) fun p q => ?_
  simp only [Vec3.dot, Vec3.cross]
  ring

section Plane

variable {f : Vec3 K → Vec3 K} {n : Vec3 K} {d : K}

/-- A triangle whose corners are moved within a plane: the cone over it is as high as before. -/
theorem Triangle.triple_map_sub {t : Triangle K}
    (hf : t.map f = t ∨ ∀ p ∈ t.corners, n.dot p = d ∧ n.dot (f p) = d) :
    ((t.map f).triple - t.triple) * n.normSq =
      d * (n.dot (t.map f).areaNormal - n.dot t.areaNormal) := by
  rcases hf with hstay | hplane
  · rw [hstay, sub_self, sub_self, zero_mul, mul_zero]
  · have hbefore := triple_mul_normSq fun p hp => (hplane p hp).1
    have hafter : (t.map f).triple * n.normSq = d * n.dot (t.map f).areaNormal := by
      refine triple_mul_normSq fun p hp => ?_
      obtain ⟨q, hq, rfl⟩ : ∃ q ∈ t.corners, f q = p := List.mem_map.1 hp
      exact (hplane q hq).2
    rw [sub_mul, hbefore, hafter, mul_sub]

/-- The difference of the volumes, by that of the sums of area normals. -/
theorem sixfoldVolume_map_sub
    (hf : ∀ t ∈ ts, t.map f = t ∨ ∀ p ∈ t.corners, n.dot p = d ∧ n.dot (f p) = d) :
    (sixfoldVolume (ts.map (·.map f)) - sixfoldVolume ts) * n.normSq =
      d * (((ts.map (·.map f)).map fun t => n.dot t.areaNormal).sum -
        (ts.map fun t => n.dot t.areaNormal).sum) := by
  induction ts with
  | nil => simp [sixfoldVolume]
  | cons t ts ih =>
    obtain ⟨ht, hts⟩ := List.forall_mem_cons.1 hf
    have hrest := ih hts
    simp only [sixfoldVolume, List.map_cons, List.sum_cons] at hrest ⊢
    linear_combination Triangle.triple_map_sub ht + hrest

/-- **Moving vertices within a plane keeps the volume** of a balanced surface. The cones over the moved
triangles are as high as before, and the area normals add up to zero before and after. -/
theorem sixfoldVolume_map_of_plane (h : Balanced ts) (hn : n.normSq ≠ 0)
    (hf : ∀ t ∈ ts, t.map f = t ∨ ∀ p ∈ t.corners, n.dot p = d ∧ n.dot (f p) = d) :
    sixfoldVolume (ts.map (·.map f)) = sixfoldVolume ts := by
  have hzero := sixfoldVolume_map_sub hf
  rw [(h.map_exact f).sum_dot_areaNormal, h.sum_dot_areaNormal, sub_zero, mul_zero] at hzero
  exact sub_eq_zero.1 ((mul_eq_zero.1 hzero).resolve_right hn)

end Plane

end Isomesh
