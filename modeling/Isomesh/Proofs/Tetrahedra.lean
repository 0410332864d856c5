import Mathlib
import Isomesh.Proofs.PulledTriangles
import Isomesh.Proofs.TreeBounds

/-!
# Tetrahedra

A tetrahedron is given by four corners that are not in one plane. Each point is a blend of them in one
way. Its shares say where it is: all are positive inside, one is zero on a face and two are on an edge.
A share is proportional to the distance from the opposite face, so it changes at a constant rate along a
ray.

* `Tetrahedron.Blends`, `Tetrahedron.blends_iff`: points as blends of the corners.
* `Tetrahedron.hasPoint_face_iff`: the faces as triangles.
* `Tetrahedron.IsSurface`: triangles that make up the surface.
-/

set_option autoImplicit false

namespace Isomesh

/-! ## Corners in another order -/

section Corners

variable {K : Type}

/-- What is kept by a rotation and by a swap of the corners does not depend on their order. -/
theorem Triangle.of_perm_corners {P : Triangle K → Prop} (hrotate : ∀ a b c, P ⟨a, b, c⟩ → P ⟨b, c, a⟩)
    (hswap : ∀ a b c, P ⟨a, b, c⟩ → P ⟨a, c, b⟩) {t u : Triangle K} (h : t.corners.Perm u.corners)
    (ht : P t) : P u := by
  obtain ⟨a, b, c⟩ := u
  obtain ⟨x, y, z⟩ := t
  have hcases := List.mem_permutations'.2 h
  simp only [corners, List.permutations', List.permutations'Aux, List.flatMap_cons, List.flatMap_nil,
    List.map_cons, List.map_nil, List.append_nil, List.cons_append, List.nil_append, List.mem_cons,
    List.cons.injEq, and_true, List.not_mem_nil, or_false] at hcases
  rcases hcases with h | h | h | h | h | h <;> obtain ⟨rfl, rfl, rfl⟩ := h
  · exact ht
  · exact hrotate _ _ _ (hrotate _ _ _ (hswap _ _ _ ht))
  · exact hrotate _ _ _ (hrotate _ _ _ ht)
  · exact hswap _ _ _ ht
  · exact hrotate _ _ _ ht
  · exact hrotate _ _ _ (hswap _ _ _ ht)

end Corners

section Points

variable {K : Type} [Field K] [LinearOrder K] [IsStrictOrderedRing K] [FloorRing K] [SquareRoot K]

namespace Triangle

variable {t u : Triangle K} {p : Vec3 K}

theorem HasPoint.of_perm (h : t.corners.Perm u.corners) (hp : t.HasPoint p) : u.HasPoint p := by
  refine of_perm_corners (P := fun t => t.HasPoint p) ?_ ?_ h hp
  · rintro a b c ⟨u, v, hu, hv, huv, rfl⟩
    refine ⟨v, 1 - u - v, hv, by linarith, by linarith, Vec3.ext_get fun axis => ?_⟩
    simp only [get_pointAt]
    ring
  · rintro a b c ⟨u, v, hu, hv, huv, rfl⟩
    refine ⟨v, u, hv, hu, by linarith, Vec3.ext_get fun axis => ?_⟩
    simp only [get_pointAt]
    ring

theorem hasPoint_congr (h : t.corners.Perm u.corners) : t.HasPoint p ↔ u.HasPoint p :=
  ⟨.of_perm h, .of_perm h.symm⟩

theorem hasArea_of_perm (h : t.corners.Perm u.corners) (ht : t.hasArea = true) : u.hasArea = true := by
  refine of_perm_corners (P := fun t => t.hasArea = true) (fun a b c ht => ?_) (fun a b c ht => ?_) h ht
  all_goals
    simp only [hasArea, decide_eq_true_eq] at ht ⊢
    convert ht using 1
    simp only [areaNormal, Vec3.normSq, Vec3.dot, Vec3.cross, Vec3.sub_def]
    ring

end Triangle

end Points

/-! ## The corners and faces of a tetrahedron -/

/-- A tetrahedron with a volume. -/
structure Tetrahedron (K : Type) [Scalar K] where
  a : Vec3 K
  b : Vec3 K
  c : Vec3 K
  d : Vec3 K
  volume_ne_zero : (b - a).dot ((c - a).cross (d - a)) ≠ 0

namespace Tetrahedron

section Definitions

variable {K : Type} [Scalar K] (T : Tetrahedron K)

/-- The corners. -/
def vertex : Fin 4 → Vec3 K := ![T.a, T.b, T.c, T.d]

/-- The face opposite to a corner. -/
def face : Fin 4 → Triangle K := ![⟨T.b, T.c, T.d⟩, ⟨T.a, T.d, T.c⟩, ⟨T.a, T.b, T.d⟩, ⟨T.a, T.c, T.b⟩]

/-- All faces. -/
def faces : List (Triangle K) := .ofFn T.face

/-- Six times the signed volume. -/
def volume : K := (T.b - T.a).dot ((T.c - T.a).cross (T.d - T.a))

/-- Whether some triangles are the faces, in any order and each with its corners in any order. -/
def IsSurface (ts : List (Triangle K)) : Prop :=
  ∃ us, ts.Perm (.ofFn us) ∧ ∀ i, (us i).corners.Perm (T.face i).corners

end Definitions

variable {K : Type} [Field K] [LinearOrder K] [IsStrictOrderedRing K] [FloorRing K] [SquareRoot K]

section Places

variable (T : Tetrahedron K)

/-- The blend of the corners with given shares. -/
def blend (w : Fin 4 → K) : Vec3 K := .ofFn fun axis => ∑ i, w i * (T.vertex i).get axis

/-- Whether a point has given shares of the corners. -/
def Blends (w : Fin 4 → K) (p : Vec3 K) : Prop := ∑ i, w i = 1 ∧ T.blend w = p

/-- Whether a point is strictly inside. -/
def Inside (p : Vec3 K) : Prop := ∃ w, T.Blends w p ∧ ∀ i, 0 < w i

/-- Whether a point is on the face opposite to a corner, its sides included. -/
def OnFace (i : Fin 4) (p : Vec3 K) : Prop := ∃ w, T.Blends w p ∧ (∀ j, 0 ≤ w j) ∧ w i = 0

/-- Whether a point is on the surface. -/
def OnSurface (p : Vec3 K) : Prop := ∃ i, T.OnFace i p

/-- Whether a point is on an edge, its ends included. -/
def OnEdge (p : Vec3 K) : Prop :=
  ∃ i j, i ≠ j ∧ ∃ w, T.Blends w p ∧ (∀ k, 0 ≤ w k) ∧ w i = 0 ∧ w j = 0

/-- How far a point is from the plane of a face, in parts of the height over it. -/
def share (p : Vec3 K) (i : Fin 4) : K :=
  ((T.face i).a - p).dot (T.face i).areaNormal / T.volume

end Places

variable {T : Tetrahedron K} {p : Vec3 K}

/-! ## Shares -/

theorem get_blend (w : Fin 4 → K) (axis : Axis) : (T.blend w).get axis =
    w 0 * T.a.get axis + w 1 * T.b.get axis + w 2 * T.c.get axis + w 3 * T.d.get axis := by
  rw [blend, Vec3.get_ofFn, Fin.sum_univ_four]
  rfl

theorem volume_ne (T : Tetrahedron K) : T.volume ≠ 0 := T.volume_ne_zero

theorem blends_share (p : Vec3 K) : T.Blends (T.share p) p := by
  refine ⟨?_, Vec3.ext_get fun axis => ?_⟩
  · simp only [Fin.sum_univ_four, share]
    rw [← add_div, ← add_div, ← add_div, div_eq_one_iff_eq T.volume_ne]
    simp only [face, volume, Triangle.areaNormal, Vec3.dot, Vec3.cross, Vec3.sub_def, Matrix.cons_val]
    ring
  · rw [get_blend]
    simp only [share, div_mul_eq_mul_div]
    rw [← add_div, ← add_div, ← add_div, div_eq_iff T.volume_ne]
    cases axis
    all_goals
      simp only [face, volume, Triangle.areaNormal, Vec3.dot, Vec3.cross, Vec3.sub_def, Vec3.get,
        Matrix.cons_val]
      ring

/-- A point has no other shares. -/
theorem Blends.eq_share {w : Fin 4 → K} (h : T.Blends w p) : w = T.share p := by
  obtain ⟨hsum, rfl⟩ := h
  rw [Fin.sum_univ_four] at hsum
  have hzero : w 0 = 1 - w 1 - w 2 - w 3 := by linear_combination hsum
  funext i
  rw [share, eq_div_iff T.volume_ne]
  simp only [blend, Fin.sum_univ_four, Vec3.ofFn, vertex, Matrix.cons_val]
  fin_cases i
  all_goals
    simp only [face, volume, Triangle.areaNormal, Vec3.dot, Vec3.cross, Vec3.sub_def, Vec3.get,
        Matrix.cons_val, Fin.zero_eta, Fin.mk_one, Fin.reduceFinMk, hzero]
    ring

theorem blends_iff {w : Fin 4 → K} : T.Blends w p ↔ w = T.share p :=
  ⟨Blends.eq_share, fun h => h ▸ blends_share p⟩

theorem inside_iff : T.Inside p ↔ ∀ i, 0 < T.share p i := by
  simp only [Inside, blends_iff, exists_eq_left]

theorem onFace_iff {i : Fin 4} : T.OnFace i p ↔ (∀ j, 0 ≤ T.share p j) ∧ T.share p i = 0 := by
  simp only [OnFace, blends_iff, exists_eq_left]

theorem onEdge_iff : T.OnEdge p ↔
    ∃ i j, i ≠ j ∧ (∀ k, 0 ≤ T.share p k) ∧ T.share p i = 0 ∧ T.share p j = 0 := by
  simp only [OnEdge, blends_iff, exists_eq_left]

theorem Inside.not_onSurface (h : T.Inside p) : ¬T.OnSurface p := by
  rintro ⟨i, hface⟩
  exact (inside_iff.1 h i).ne' (onFace_iff.1 hface).2

/-! ## Faces -/

/-- The shares of the point of a face at given shares of the two sides that leave its first corner. -/
def faceShares (u v : K) : Fin 4 → Fin 4 → K :=
  ![![0, 1 - u - v, u, v], ![1 - u - v, 0, v, u], ![1 - u - v, u, 0, v], ![1 - u - v, v, u, 0]]

theorem blends_faceShares (T : Tetrahedron K) (u v : K) (i : Fin 4) :
    T.Blends (faceShares u v i) ((T.face i).pointAt u v) := by
  refine ⟨?_, Vec3.ext_get fun axis => ?_⟩
  · rw [Fin.sum_univ_four]
    fin_cases i
    all_goals
      simp only [faceShares, Matrix.cons_val, Fin.zero_eta, Fin.mk_one, Fin.reduceFinMk]
      ring
  · rw [get_blend, Triangle.get_pointAt]
    fin_cases i
    all_goals
      simp only [faceShares, face, Matrix.cons_val, Fin.zero_eta, Fin.mk_one, Fin.reduceFinMk]
      ring

theorem faceShares_self (u v : K) (i : Fin 4) : faceShares u v i i = 0 := by
  fin_cases i <;> rfl

theorem faceShares_nonneg_iff {u v : K} {i : Fin 4} :
    (∀ j, 0 ≤ faceShares u v i j) ↔ 0 ≤ u ∧ 0 ≤ v ∧ u + v ≤ 1 := by
  have hrest : 0 ≤ 1 - u - v ↔ u + v ≤ 1 := by rw [sub_sub, sub_nonneg]
  rw [Fin.forall_fin_succ, Fin.forall_fin_succ, Fin.forall_fin_succ, Fin.forall_fin_one]
  fin_cases i
  all_goals
    simp [faceShares, hrest]
    tauto

theorem exists_eq_faceShares {w : Fin 4 → K} {i : Fin 4} (hsum : ∑ j, w j = 1) (hi : w i = 0) :
    ∃ u v, w = faceShares u v i := by
  rw [Fin.sum_univ_four] at hsum
  match i, hi with
  | 0, hi =>
    refine ⟨w 2, w 3, funext fun j => ?_⟩
    have hrest : w 1 = 1 - w 2 - w 3 := by linear_combination hsum - hi
    fin_cases j
    exacts [hi, hrest, rfl, rfl]
  | 1, hi =>
    refine ⟨w 3, w 2, funext fun j => ?_⟩
    have hrest : w 0 = 1 - w 3 - w 2 := by linear_combination hsum - hi
    fin_cases j
    exacts [hrest, hi, rfl, rfl]
  | 2, hi =>
    refine ⟨w 1, w 3, funext fun j => ?_⟩
    have hrest : w 0 = 1 - w 1 - w 3 := by linear_combination hsum - hi
    fin_cases j
    exacts [hrest, rfl, hi, rfl]
  | 3, hi =>
    refine ⟨w 2, w 1, funext fun j => ?_⟩
    have hrest : w 0 = 1 - w 2 - w 1 := by linear_combination hsum - hi
    fin_cases j
    exacts [hrest, rfl, rfl, hi]

/-- **The points of a face** have no share of the opposite corner. -/
theorem hasPoint_face_iff {i : Fin 4} : (T.face i).HasPoint p ↔ T.OnFace i p := by
  constructor
  · rintro ⟨u, v, hu, hv, huv, rfl⟩
    exact ⟨_, T.blends_faceShares u v i, faceShares_nonneg_iff.2 ⟨hu, hv, huv⟩, faceShares_self u v i⟩
  · rintro ⟨w, ⟨hsum, rfl⟩, hw, hi⟩
    obtain ⟨u, v, rfl⟩ := exists_eq_faceShares hsum hi
    obtain ⟨hu, hv, huv⟩ := faceShares_nonneg_iff.1 hw
    exact ⟨u, v, hu, hv, huv, (T.blends_faceShares u v i).2⟩

theorem hasArea_face (T : Tetrahedron K) (i : Fin 4) : (T.face i).hasArea = true := by
  refine decide_eq_true ((T.face i).areaNormal.normSq_nonneg.lt_of_ne' fun hzero => ?_)
  obtain ⟨hx, hy, hz⟩ := Vec3.eq_zero_of_normSq_eq_zero hzero
  -- the corner opposite to the face has all of its own share
  have hblends : T.Blends (Pi.single i 1) (T.blend (Pi.single i 1)) := ⟨by simp, rfl⟩
  have hshare := congrFun hblends.eq_share i
  simp [share, Vec3.dot, hx, hy, hz] at hshare

/-! ## Triangles that make up the surface -/

variable {ts us : List (Triangle K)} {t : Triangle K}

theorem isSurface_faces (T : Tetrahedron K) : T.IsSurface T.faces := ⟨T.face, .rfl, fun _ => .rfl⟩

namespace IsSurface

theorem of_perm (h : T.IsSurface ts) (hperm : us.Perm ts) : T.IsSurface us := by
  obtain ⟨fs, hts, hfaces⟩ := h
  exact ⟨fs, hperm.trans hts, hfaces⟩

theorem exists_face (h : T.IsSurface ts) (ht : t ∈ ts) :
    ∃ i, t.corners.Perm (T.face i).corners := by
  obtain ⟨fs, hts, hfaces⟩ := h
  obtain ⟨i, rfl⟩ := List.mem_ofFn.1 (hts.mem_iff.1 ht)
  exact ⟨i, hfaces i⟩

theorem exists_triangle (h : T.IsSurface ts) (i : Fin 4) :
    ∃ t ∈ ts, t.corners.Perm (T.face i).corners := by
  obtain ⟨fs, hts, hfaces⟩ := h
  exact ⟨fs i, hts.mem_iff.2 (List.mem_ofFn.2 ⟨i, rfl⟩), hfaces i⟩

/-- Each corner of the tetrahedron belongs to some triangle. -/
theorem exists_corner (h : T.IsSurface ts) (i : Fin 4) : ∃ t ∈ ts, T.vertex i ∈ t.corners := by
  have hface : ∃ j, T.vertex i ∈ (T.face j).corners := by
    match i with
    | 0 => exact ⟨1, List.mem_cons_self⟩
    | 1 => exact ⟨0, List.mem_cons_self⟩
    | 2 => exact ⟨0, List.mem_cons_of_mem _ List.mem_cons_self⟩
    | 3 => exact ⟨1, List.mem_cons_of_mem _ List.mem_cons_self⟩
  obtain ⟨j, hj⟩ := hface
  obtain ⟨t, ht, hperm⟩ := h.exists_triangle j
  exact ⟨t, ht, hperm.mem_iff.2 hj⟩

theorem hasArea (h : T.IsSurface ts) (ht : t ∈ ts) : t.hasArea = true := by
  obtain ⟨i, hi⟩ := h.exists_face ht
  exact Triangle.hasArea_of_perm hi.symm (T.hasArea_face i)

theorem ne_nil (h : T.IsSurface ts) : ts ≠ [] := by
  obtain ⟨t, ht, -⟩ := h.exists_triangle 0
  exact List.ne_nil_of_mem ht

/-- The triangles have the points of the surface. -/
theorem onSurface_of_hasPoint (h : T.IsSurface ts) (ht : t ∈ ts) (hp : t.HasPoint p) :
    T.OnSurface p := by
  obtain ⟨i, hi⟩ := h.exists_face ht
  exact ⟨i, hasPoint_face_iff.1 (hp.of_perm hi)⟩

end IsSurface

end Tetrahedron

end Isomesh
