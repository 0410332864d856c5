import Isomesh.VertexKey

/-!
# Segments

An undirected edge. The end with the smaller key comes first, so a segment does not remember in
which direction its ends were named: `Segment.key_between_comm`.

Models `Segment`: `new` (`between`), `points` (`ends`), `keys`, its equality and order (`key`), `mid`,
`length`, `has_endpoint`, `touches`.
-/

set_option autoImplicit false

namespace Isomesh

/-- The identity of a segment: the keys of its ends, the smaller first. -/
structure EdgeKey (K : Type) [Scalar K] where
  lo : VertexKey K
  hi : VertexKey K

/-- An undirected edge between two points. -/
structure Segment (K : Type) [Scalar K] where
  lo : Vec3 K
  hi : Vec3 K
  ordered : (compare lo.key hi.key).isLE

variable {K : Type} [Scalar K]

namespace EdgeKey

instance : Ord (EdgeKey K) where
  compare := compareLex (compareOn lo) (compareOn hi)

instance : Std.TransOrd (EdgeKey K) :=
  inferInstanceAs (Std.TransCmp (compareLex (compareOn EdgeKey.lo) (compareOn EdgeKey.hi)))

instance : Std.LawfulEqOrd (EdgeKey K) where
  eq_of_compare {a b} h := by
    have hc := compareLex_eq_eq.mp h
    have hlo : a.lo = b.lo := Std.LawfulEqOrd.eq_of_compare hc.1
    have hhi : a.hi = b.hi := Std.LawfulEqOrd.eq_of_compare hc.2
    cases a
    cases b
    simp_all

instance : DecidableEq (EdgeKey K) := fun a b =>
  decidable_of_iff (compare a b = .eq) Std.LawfulEqCmp.compare_eq_iff_eq

end EdgeKey

namespace Segment

/-- The segment between two points, named in either order. -/
def between (a b : Vec3 K) : Segment K :=
  if h : (compare a.key b.key).isLE then ⟨a, b, h⟩
  else ⟨b, a, by
    have swap : compare b.key a.key = (compare a.key b.key).swap := Std.OrientedCmp.eq_swap
    rw [swap]
    cases hc : compare a.key b.key <;> simp_all⟩

/-- The identity of the segment. -/
def key (s : Segment K) : EdgeKey K := ⟨s.lo.key, s.hi.key⟩

/-- The two ends. -/
def ends (s : Segment K) : List (Vec3 K) := [s.lo, s.hi]

/-- The point halfway between the ends. -/
def mid (s : Segment K) : Vec3 K := s.lo.midpoint s.hi

/-- The distance between the ends. -/
def length (s : Segment K) : K := s.hi.dist s.lo

/-- Whether a key is that of an end. -/
def hasEnd (s : Segment K) (k : VertexKey K) : Bool := s.lo.key = k || s.hi.key = k

/-- Whether two segments have an end in common. -/
def touches (s t : Segment K) : Bool := t.hasEnd s.lo.key || t.hasEnd s.hi.key

theorem between_of_isLE {a b : Vec3 K} (h : (compare a.key b.key).isLE) :
    between a b = ⟨a, b, h⟩ := dif_pos h

/-- Naming the ends in the other order gives the same segment. -/
theorem key_between_comm (a b : Vec3 K) : (between a b).key = (between b a).key := by
  have swap : compare b.key a.key = (compare a.key b.key).swap := Std.OrientedCmp.eq_swap
  by_cases hab : (compare a.key b.key).isLE
  · by_cases hba : (compare b.key a.key).isLE
    · have he : a.key = b.key := Std.LawfulEqOrd.eq_of_compare (by
        rw [swap] at hba
        cases hc : compare a.key b.key <;> simp_all)
      rw [between_of_isLE hab, between_of_isLE hba]
      simp [key, he]
    · rw [between_of_isLE hab, between, dif_neg hba]
  · have hba : (compare b.key a.key).isLE := by
      rw [swap]
      cases hc : compare a.key b.key <;> simp_all
    rw [between_of_isLE hba, between, dif_neg hab]

end Segment

end Isomesh
