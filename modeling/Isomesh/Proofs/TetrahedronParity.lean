import Mathlib
import Isomesh.Proofs.LineCrossing
import Isomesh.Proofs.NearestSearch
import Isomesh.Proofs.RegionRays
import Isomesh.Proofs.Tetrahedra

/-!
# Parity decides what a tetrahedron encloses

The shares of a point that moves along a ray are quantities at constant rates, and the ray meets a face
when the share of the opposite corner becomes zero and no other is negative. So a ray through no edge
meets an odd number of faces just when it starts inside. What a tree counts are the faces that are met
and to which the ray is not nearly parallel.

* `Tetrahedron.IsSurface.odd_met_iff`: the parity of the faces that a ray meets.
* `Tree.Boxed.crossings_add_grazes`: the faces that a tree leaves out.
* `Tree.AnswersInside`: what a tree says about a point.
* `Tree.inside_of_tetrahedron`: the main result.
-/

set_option autoImplicit false

namespace Isomesh

variable {K : Type} [Field K] [LinearOrder K] [IsStrictOrderedRing K] [FloorRing K] [SquareRoot K]

theorem countP_ofFn_eq_ncard {α : Type} {n : ℕ} (f : Fin n → α) (p : α → Bool) :
    (List.ofFn f).countP p = {i | p (f i) = true}.ncard := by
  rw [List.ofFn_eq_map, List.countP_map, List.countP_eq_length_filter,
    ← List.toFinset_card_of_nodup ((List.nodup_finRange n).filter _), ← Set.ncard_coe_finset]
  congr 1
  ext i
  simp

/-! ## Shares along a ray -/

namespace Tetrahedron

variable {T : Tetrahedron K} {ray : Ray K} {ts : List (Triangle K)}

/-- The shares of the points of a ray. -/
def approach (T : Tetrahedron K) (ray : Ray K) : Motion (Fin 4) K :=
  ⟨T.share ray.origin, fun i => -ray.direction.dot (T.face i).areaNormal / T.volume⟩

theorem value_approach (T : Tetrahedron K) (ray : Ray K) (s : K) (i : Fin 4) :
    (T.approach ray).value s i = T.share (ray.pointAt s) i := by
  simp only [Motion.value, approach, share, Ray.pointAt, Vec3.dot, Vec3.sub_def, Vec3.add_def,
    Vec3.scale]
  ring

theorem within_approach_iff {s : K} :
    (T.approach ray).Within s ↔ ∀ i, 0 ≤ T.share (ray.pointAt s) i := by
  simp only [Motion.Within, value_approach]

theorem meets_approach_iff {i : Fin 4} : (T.approach ray).Meets i ↔ (T.face i).MetBy ray := by
  simp only [Motion.Meets, Triangle.MetBy, within_approach_iff, value_approach, hasPoint_face_iff,
    onFace_iff, and_comm]

/-- A ray that goes somewhere comes nearer to some face. -/
theorem exists_rate_neg (T : Tetrahedron K) (hdirection : ray.direction ≠ .zero) :
    ∃ i, (T.approach ray).rate i < 0 := by
  by_contra hnone
  push Not at hnone
  have hrate : ∀ i, (T.approach ray).rate i = T.share (ray.pointAt 1) i - T.share ray.origin i := by
    intro i
    rw [← value_approach, Motion.value, mul_one]
    exact (add_sub_cancel_left _ _).symm
  have hsum : ∑ i, (T.approach ray).rate i = 0 := by
    simp only [hrate, Finset.sum_sub_distrib, (T.blends_share _).1, sub_self]
  have hzero := (Finset.sum_eq_zero_iff_of_nonneg fun i _ => hnone i).1 hsum
  -- so the shares do not change, and neither does the point
  have hsame : T.share (ray.pointAt 1) = T.share ray.origin := by
    funext i
    exact sub_eq_zero.1 ((hrate i).symm.trans (hzero i (Finset.mem_univ i)))
  have hpoint : ray.pointAt 1 = ray.origin := by
    rw [← (T.blends_share (ray.pointAt 1)).2, hsame, (T.blends_share ray.origin).2]
  refine hdirection (Vec3.ext_get fun axis => ?_)
  have haxis := congrArg (Vec3.get · axis) hpoint
  simp only [Ray.get_pointAt, mul_one, add_eq_left] at haxis
  rw [haxis]
  cases axis <;> rfl

/-- Whether a ray goes through no edge. -/
def ClearOfEdges (T : Tetrahedron K) (ray : Ray K) : Prop := ∀ s, 0 ≤ s → ¬T.OnEdge (ray.pointAt s)

theorem clear_approach (h : T.ClearOfEdges ray) : (T.approach ray).Clear := by
  intro s hs hwithin i j hi hj
  by_contra hne
  rw [value_approach] at hi hj
  exact h s hs (onEdge_iff.2 ⟨i, j, hne, within_approach_iff.1 hwithin, hi, hj⟩)

open Classical in
/-- **A ray through no edge meets an odd number of faces just when it starts inside.** -/
theorem IsSurface.odd_met_iff (h : T.IsSurface ts) (hclear : T.ClearOfEdges ray)
    (hdirection : ray.direction ≠ .zero) (hoff : ¬T.OnSurface ray.origin) :
    Odd (ts.countP fun t => t.MetBy ray) ↔ T.Inside ray.origin := by
  obtain ⟨fs, hts, hfaces⟩ := h
  have hmet : {i | decide ((fs i).MetBy ray) = true} = {i | (T.approach ray).Meets i} := by
    ext i
    simp only [Set.mem_ofPred_eq, decide_eq_true_eq, meets_approach_iff, Triangle.MetBy,
      Triangle.hasPoint_congr (hfaces i)]
  rw [hts.countP_eq, countP_ofFn_eq_ncard, hmet,
    Motion.odd_ncard_meets_iff (T.exists_rate_neg hdirection) (clear_approach hclear), inside_iff]
  · rfl
  · intro hwithin i hzero
    refine hoff ⟨i, onFace_iff.2 ⟨fun j => ?_, hzero⟩⟩
    have hj := hwithin j
    rwa [Motion.value_zero] at hj

end Tetrahedron

/-! ## What a tree counts -/

open Classical in
/-- The number of triangles that a ray meets and to which it is nearly parallel. -/
noncomputable def Ray.grazes (ray : Ray K) (ts : List (Triangle K)) : ℕ :=
  ts.countP fun t => t.MetBy ray ∧ t.NearlyParallel ray.direction

theorem Solid.probe_ne_zero : (Solid.probe : Vec3 K) ≠ .zero := by
  intro h
  have hx : (0.5224892708603626 : K) = 0 := congrArg Vec3.x h
  norm_num at hx

theorem Ray.grazes_perm {ts us : List (Triangle K)} (h : ts.Perm us) (ray : Ray K) :
    ray.grazes ts = ray.grazes us :=
  h.countP_eq _

namespace Tree

variable {T : Tetrahedron K} {tree : Tree K} {ts : List (Triangle K)} {p : Vec3 K}

/-- The box of a tree holds the inside. -/
theorem Boxed.contains_of_inside (h : tree.Boxed) (hsurface : T.IsSurface tree.triangles)
    (hin : T.Inside p) : tree.bounds.contains p = true := by
  obtain ⟨w, ⟨hsum, rfl⟩, hw⟩ := hin
  rw [Bounds.contains_iff]
  intro axis
  have hvertex : ∀ i ∈ Finset.univ, (T.vertex i).get axis ∈
      Set.Icc (tree.bounds.lo.get axis) (tree.bounds.hi.get axis) := by
    intro i _
    obtain ⟨t, ht, hcorner⟩ := hsurface.exists_corner i
    exact ⟨(h.isLeast axis).2 ⟨t, ht, _, hcorner, rfl⟩, (h.isGreatest axis).2 ⟨t, ht, _, hcorner, rfl⟩⟩
  rw [Tetrahedron.blend, Vec3.get_ofFn]
  exact (convex_Icc _ _).sum_mem (fun i _ => (hw i).le) hsum hvertex

theorem contains_eq_true_iff : (Solid.enclosedBy tree.collider).contains p = true ↔
    tree.bounds.contains p = true ∧ Odd (tree.crossings ⟨p, Solid.probe⟩) := by
  rw [Nat.odd_iff]
  exact Bool.and_eq_true_iff.trans (and_congr_right fun _ => decide_eq_true_iff)

/-- The tree of the faces says no where the probe crosses an even number of them. -/
theorem exists_ofMesh_faces (T : Tetrahedron K) :
    ∃ tree, ofMesh (.ofTriangles T.faces) = .ok tree ∧
      ∀ p, Even {i | ((T.face i).crossedByRay ⟨p, Solid.probe⟩).isSome = true}.ncard →
        (Solid.enclosedBy tree.collider).contains p = false := by
  have hgrouped := groupTriangles_perm T.faces
  obtain ⟨tree, htree, htriangles, hboxed⟩ := exists_ofList (T.isSurface_faces.of_perm hgrouped).ne_nil
  refine ⟨tree, ?_, fun p heven => ?_⟩
  · rw [ofMesh, Mesh.triangles_ofTriangles, htree]
  · rw [← Bool.not_eq_true, contains_eq_true_iff, hboxed.crossings_eq, htriangles, hgrouped.countP_eq,
      Tetrahedron.faces, countP_ofFn_eq_ncard]
    exact fun hin => Nat.not_odd_iff_even.2 heven hin.2

variable [ExactRoot K]

open Classical in
theorem Boxed.crossings_add_grazes (h : tree.Boxed) (ray : Ray K) :
    tree.crossings ray + ray.grazes tree.triangles = tree.triangles.countP fun t => t.MetBy ray := by
  have hsplit := List.countP_eq_countP_filter_add tree.triangles (fun t => decide (t.MetBy ray))
    fun t => decide (t.NearlyParallel ray.direction)
  rw [List.countP_filter, List.countP_filter, add_comm] at hsplit
  rw [hsplit, h.crossings_eq]
  congr 1
  · refine List.countP_congr fun t _ => ?_
    simp [Triangle.isSome_crossedByRay_iff, and_comm]
  · refine List.countP_congr fun t _ => ?_
    simp

/-- The parity of the crossings, for a probe through no edge. -/
theorem Boxed.odd_crossings_iff (h : tree.Boxed) (hsurface : T.IsSurface tree.triangles)
    (hoff : ¬T.OnSurface p) (hclear : T.ClearOfEdges ⟨p, Solid.probe⟩) :
    Odd (tree.crossings ⟨p, Solid.probe⟩) ↔
      (T.Inside p ↔ Even (Ray.grazes ⟨p, Solid.probe⟩ tree.triangles)) := by
  have hmet := hsurface.odd_met_iff hclear Solid.probe_ne_zero hoff
  rw [← h.crossings_add_grazes, Nat.odd_add] at hmet
  tauto

theorem Boxed.dist_pos (h : tree.Boxed) (hsurface : T.IsSurface tree.triangles)
    (hoff : ¬T.OnSurface p) : 0 < tree.dist p := by
  obtain ⟨t, ht, hnearest, -⟩ := nearest_eq_some h (fun t ht => hsurface.hasArea ht) p
  have hdist : tree.dist p = (t.closest p).dist p := by
    rw [dist, hnearest]
    rfl
  rw [hdist]
  refine (Vec3.norm_nonneg _).lt_of_ne' fun hzero => hoff ?_
  have hsq : (t.closest p - p).normSq = 0 := by rw [← Vec3.norm_mul_norm, hzero, mul_zero]
  have hpoint : t.closest p = p := Vec3.eq_of_normSq_sub_eq_zero hsq
  exact hsurface.onSurface_of_hasPoint ht (hpoint ▸ t.hasPoint_closest (hsurface.hasArea ht) p)

/-! ## Main result -/

/-- What a tree over the faces of a tetrahedron says about a point. Where the probe goes through no edge
the answer is right, but for faces that the probe meets while it is nearly parallel to them: each of
these turns it around. The sign of the distance is always that of the answer. -/
structure AnswersInside (T : Tetrahedron K) (ts : List (Triangle K)) (p : Vec3 K) (tree : Tree K) :
    Prop where
  not_inside : tree.bounds.contains p = false →
    ¬T.Inside p ∧ (Solid.enclosedBy tree.collider).contains p = false
  contains_iff : T.ClearOfEdges ⟨p, Solid.probe⟩ →
    ((Solid.enclosedBy tree.collider).contains p = true ↔
      tree.bounds.contains p = true ∧ (T.Inside p ↔ Even (Ray.grazes ⟨p, Solid.probe⟩ ts)))
  contains_iff_inside : T.ClearOfEdges ⟨p, Solid.probe⟩ → Ray.grazes ⟨p, Solid.probe⟩ ts = 0 →
    ((Solid.enclosedBy tree.collider).contains p = true ↔ T.Inside p)
  signedDist_pos_iff : 0 < tree.signedDist p ↔ (Solid.enclosedBy tree.collider).contains p = true
  signedDist_neg_iff : tree.signedDist p < 0 ↔ (Solid.enclosedBy tree.collider).contains p = false

theorem Boxed.answersInside (h : tree.Boxed) (hsurface : T.IsSurface tree.triangles)
    (hoff : ¬T.OnSurface p) : AnswersInside T tree.triangles p tree := by
  have hcontains (hclear : T.ClearOfEdges ⟨p, Solid.probe⟩) :
      (Solid.enclosedBy tree.collider).contains p = true ↔ tree.bounds.contains p = true ∧
        (T.Inside p ↔ Even (Ray.grazes ⟨p, Solid.probe⟩ tree.triangles)) := by
    rw [contains_eq_true_iff, h.odd_crossings_iff hsurface hoff hclear]
  have hpos := h.dist_pos hsurface hoff
  refine ⟨fun hout => ⟨fun hin => ?_, ?_⟩, hcontains, fun hclear hnone => ?_, ?_, ?_⟩
  · rw [h.contains_of_inside hsurface hin] at hout
    cases hout
  · rw [← Bool.not_eq_true, contains_eq_true_iff, hout]
    exact fun hin => Bool.false_ne_true hin.1
  · rw [hcontains hclear, hnone]
    simp only [Even.zero, iff_true]
    exact ⟨And.right, fun hin => ⟨h.contains_of_inside hsurface hin, hin⟩⟩
  · rw [signedDist, sign]
    split_ifs with hin
    · simp [hin, hpos]
    · simp [hin, hpos.le]
  · rw [signedDist, sign]
    split_ifs with hin
    · simp [hin, hpos.le]
    · simp [hin, hpos]

/-- **Parity decides what a tetrahedron encloses**, for every tetrahedron and every point that is not on
its surface, whichever way the tree is made from the faces. -/
theorem inside_of_tetrahedron (hsurface : T.IsSurface ts) (hoff : ¬T.OnSurface p) :
    (∃ tree, ofList ts = .ok tree ∧ tree.AnswersInside T ts p) ∧
      ∀ m : Mesh K, m.triangles = ts → ∃ tree, ofMesh m = .ok tree ∧ tree.AnswersInside T ts p := by
  have hlist : ∀ us : List (Triangle K), us.Perm ts →
      ∃ tree, ofList us = .ok tree ∧ tree.AnswersInside T ts p := by
    intro us hperm
    have hus := hsurface.of_perm hperm
    obtain ⟨tree, htree, rfl, hboxed⟩ := exists_ofList hus.ne_nil
    have hanswers := hboxed.answersInside hus hoff
    have hgrazes := Ray.grazes_perm hperm ⟨p, Solid.probe⟩
    refine ⟨tree, htree, hanswers.not_inside, ?_, ?_, hanswers.signedDist_pos_iff,
      hanswers.signedDist_neg_iff⟩
    · rw [← hgrazes]
      exact hanswers.contains_iff
    · rw [← hgrazes]
      exact hanswers.contains_iff_inside
  exact ⟨hlist ts .rfl, fun m hm => hlist _ (hm ▸ groupTriangles_perm m.triangles)⟩

end Tree

/-! ## A point that is judged right -/

namespace Tetrahedron

/-- The corner of the unit cube at the origin. -/
noncomputable def unitCorner : Tetrahedron ℝ where
  a := ⟨0, 0, 0⟩
  b := ⟨1, 0, 0⟩
  c := ⟨0, 1, 0⟩
  d := ⟨0, 0, 1⟩
  volume_ne_zero := by
    simp only [Vec3.dot, Vec3.cross, Vec3.sub_def]
    norm_num

theorem inside_unitCorner : unitCorner.Inside ⟨1 / 4, 1 / 4, 1 / 4⟩ := by
  refine ⟨fun _ => 1 / 4, ⟨by norm_num, Vec3.ext_get fun axis => ?_⟩, fun _ => by norm_num⟩
  rw [get_blend]
  cases axis
  all_goals
    simp only [unitCorner, Vec3.get]
    norm_num

/-- The coordinates are the shares of three corners, and they grow along the probe. -/
theorem clearOfEdges_unitCorner :
    unitCorner.ClearOfEdges ⟨⟨1 / 4, 1 / 4, 1 / 4⟩, Solid.probe⟩ := by
  rintro s hs ⟨i, j, hne, w, ⟨-, hblend⟩, -, hi, hj⟩
  have haxis := fun axis => congrArg (Vec3.get · axis) hblend
  simp only [get_blend, Ray.get_pointAt] at haxis
  have hpos : ∀ k, k ≠ 0 → 0 < w k := by
    intro k hk
    match k with
    | 0 => exact absurd rfl hk
    | 1 =>
      have hx := haxis .x
      simp only [unitCorner, Vec3.get, Solid.probe] at hx
      linarith
    | 2 =>
      have hy := haxis .y
      simp only [unitCorner, Vec3.get, Solid.probe] at hy
      linarith
    | 3 =>
      have hz := haxis .z
      simp only [unitCorner, Vec3.get, Solid.probe] at hz
      linarith
  have hi0 : i = 0 := by_contra fun h => (hpos i h).ne' hi
  have hj0 : j = 0 := by_contra fun h => (hpos j h).ne' hj
  exact hne (hi0.trans hj0.symm)

theorem not_nearlyParallel_unitCorner (i : Fin 4) :
    ¬(unitCorner.face i).NearlyParallel Solid.probe := by
  rw [Triangle.nearlyParallel_iff]
  match i with
  | 0 | 1 | 2 | 3 =>
    simp only [face, unitCorner, Triangle.areaNormal, Vec3.normSq, Vec3.dot, Vec3.cross,
      Vec3.sub_def, Solid.probe, parallelTolerance, Matrix.cons_val]
    norm_num

end Tetrahedron

namespace Tree

open Tetrahedron

theorem inside_of_unitCorner : unitCorner.IsSurface unitCorner.faces ∧
    ¬unitCorner.OnSurface ⟨1 / 4, 1 / 4, 1 / 4⟩ ∧
    ∃ tree, ofMesh (.ofTriangles unitCorner.faces) = .ok tree ∧
      (Solid.enclosedBy tree.collider).contains ⟨1 / 4, 1 / 4, 1 / 4⟩ = true ∧
      0 < tree.signedDist ⟨1 / 4, 1 / 4, 1 / 4⟩ := by
  have hsurface := unitCorner.isSurface_faces
  have hoff := inside_unitCorner.not_onSurface
  obtain ⟨-, hmesh⟩ := inside_of_tetrahedron hsurface hoff
  obtain ⟨tree, htree, hanswers⟩ := hmesh _ (Mesh.triangles_ofTriangles unitCorner.faces)
  have hgrazes : Ray.grazes ⟨⟨1 / 4, 1 / 4, 1 / 4⟩, Solid.probe⟩ unitCorner.faces = 0 := by
    refine List.countP_eq_zero.2 fun t ht => ?_
    obtain ⟨i, rfl⟩ := List.mem_ofFn.1 ht
    simpa using fun _ => not_nearlyParallel_unitCorner i
  have hcontains := (hanswers.contains_iff_inside clearOfEdges_unitCorner hgrazes).2 inside_unitCorner
  exact ⟨hsurface, hoff, tree, htree, hcontains, hanswers.signedDist_pos_iff.2 hcontains⟩

end Tree

/-! ## Two points that are misjudged -/

namespace Tetrahedron

/-- A tetrahedron with a roof along which the probe almost runs, and an upright edge. -/
noncomputable def blade : Tetrahedron ℝ where
  a := ⟨-0.5224892708603626, 0.8950552275678549, -0.84614938⟩
  b := ⟨0.5224892708603626, 0.1049447724321451, 0.84614938⟩
  c := ⟨-0.5224892708603626, -1.1049447724321451, -0.84614938⟩
  d := ⟨0.5224892708603626, 0.1049447724321451, -4⟩
  volume_ne_zero := by
    simp only [Vec3.dot, Vec3.cross, Vec3.sub_def]
    norm_num

theorem inside_blade {h : ℝ} (hpos : 0 < h) (hle : h ≤ 1) : blade.Inside ⟨0, 0, -h⟩ := by
  refine ⟨![1 / 4, 1 / 2 - h / 4.84614938, 1 / 4, h / 4.84614938],
    ⟨?_, Vec3.ext_get fun axis => ?_⟩, fun i => ?_⟩
  · simp only [Fin.sum_univ_four, Matrix.cons_val]
    ring
  · rw [get_blend]
    cases axis
    all_goals
      simp only [Matrix.cons_val, blade, Vec3.get]
      ring
  · have hheight : (0 : ℝ) < 4.84614938 := by norm_num
    have hshare : h / 4.84614938 < 1 / 2 := by
      rw [div_lt_iff₀ hheight]
      linarith
    fin_cases i
    exacts [by norm_num, sub_pos.2 hshare, by norm_num, div_pos hpos hheight]

/-- The probe is nearly parallel to the roof. -/
theorem nearlyParallel_blade_roof : (blade.face 3).NearlyParallel Solid.probe := by
  rw [Triangle.nearlyParallel_iff]
  simp only [face, blade, Triangle.areaNormal, Vec3.normSq, Vec3.dot, Vec3.cross, Vec3.sub_def,
    Solid.probe, parallelTolerance, Matrix.cons_val]
  norm_num

/-- It is not to the faces at the upright edge. -/
theorem not_nearlyParallel_blade_sides : ¬(blade.face 0).NearlyParallel Solid.probe ∧
    ¬(blade.face 2).NearlyParallel Solid.probe := by
  simp only [Triangle.nearlyParallel_iff, face, blade, Triangle.areaNormal, Vec3.normSq, Vec3.dot,
    Vec3.cross, Vec3.sub_def, Solid.probe, parallelTolerance, Matrix.cons_val]
  norm_num

/-- The probe from below the roof goes up, away from the bottom. -/
theorem not_metBy_blade_bottom {h : ℝ} (hle : h ≤ 1) :
    ¬(blade.face 1).MetBy ⟨⟨0, 0, -h⟩, Solid.probe⟩ := by
  rw [Triangle.metBy_iff]
  rintro ⟨s, u, v, hs, hu, hv, huv, haxis⟩
  have hx := haxis .x
  have hy := haxis .y
  have hz := haxis .z
  simp only [face, blade, Matrix.cons_val, Vec3.get, Solid.probe] at hx hy hz
  linarith

/-- From well below the roof it meets both faces at the upright edge. -/
theorem metBy_blade_sides : (blade.face 0).MetBy ⟨⟨0, 0, -1⟩, Solid.probe⟩ ∧
    (blade.face 2).MetBy ⟨⟨0, 0, -1⟩, Solid.probe⟩ := by
  rw [Triangle.metBy_iff, Triangle.metBy_iff]
  refine ⟨⟨1, 0, 0.9999999948765433 / 4.84614938, zero_le_one, ?_, ?_, ?_, fun axis => ?_⟩,
    ⟨1, 1 - 0.9999999948765433 / 4.84614938, 0.9999999948765433 / 4.84614938, zero_le_one, ?_, ?_, ?_,
      fun axis => ?_⟩⟩
  iterate 2
    · norm_num
    · norm_num
    · norm_num
    · cases axis
      all_goals
        simp only [face, blade, Matrix.cons_val, Solid.probe, Vec3.get]
        norm_num

/-- From next to the roof it passes above the upright edge. -/
theorem not_metBy_blade_sides : ¬(blade.face 0).MetBy ⟨⟨0, 0, -1e-9⟩, Solid.probe⟩ ∧
    ¬(blade.face 2).MetBy ⟨⟨0, 0, -1e-9⟩, Solid.probe⟩ := by
  rw [Triangle.metBy_iff, Triangle.metBy_iff]
  constructor
  all_goals
    rintro ⟨s, u, v, hs, hu, hv, huv, haxis⟩
    have hx := haxis .x
    have hy := haxis .y
    have hz := haxis .z
    simp only [face, blade, Matrix.cons_val, Vec3.get, Solid.probe] at hx hy hz
    linarith

end Tetrahedron

namespace Tree

open Tetrahedron

/-- The probe of the lower point leaves through the upright edge, where two faces are crossed. That of the
upper one leaves through the roof, which does not count. So neither point is found to be inside. -/
theorem blade_escapes : ∃ tree, ofMesh (.ofTriangles blade.faces) = .ok tree ∧
    (¬blade.OnSurface ⟨0, 0, -1⟩ ∧ blade.Inside ⟨0, 0, -1⟩ ∧
      (Solid.enclosedBy tree.collider).contains ⟨0, 0, -1⟩ = false) ∧
    (¬blade.OnSurface ⟨0, 0, -1e-9⟩ ∧ blade.Inside ⟨0, 0, -1e-9⟩ ∧
      (Solid.enclosedBy tree.collider).contains ⟨0, 0, -1e-9⟩ = false) := by
  obtain ⟨tree, htree, hcontains⟩ := exists_ofMesh_faces blade
  have hlow : blade.Inside ⟨0, 0, -1⟩ := inside_blade one_pos le_rfl
  have hhigh : blade.Inside ⟨0, 0, -1e-9⟩ := inside_blade (by norm_num) (by norm_num)
  refine ⟨tree, htree, ⟨hlow.not_onSurface, hlow, hcontains _ ?_⟩,
    ⟨hhigh.not_onSurface, hhigh, hcontains _ ?_⟩⟩
  · -- two faces are crossed at the upright edge
    have hcrossed : {i | ((blade.face i).crossedByRay ⟨⟨0, 0, -1⟩, Solid.probe⟩).isSome = true} =
        {0, 2} := by
      ext i
      rw [Set.mem_ofPred_eq, Triangle.isSome_crossedByRay_iff]
      match i with
      | 0 => exact iff_of_true ⟨not_nearlyParallel_blade_sides.1, metBy_blade_sides.1⟩ (.inl rfl)
      | 1 => exact iff_of_false (fun h => not_metBy_blade_bottom le_rfl h.2) (by simp)
      | 2 => exact iff_of_true ⟨not_nearlyParallel_blade_sides.2, metBy_blade_sides.2⟩ (.inr rfl)
      | 3 => exact iff_of_false (fun h => h.1 nearlyParallel_blade_roof) (by simp)
    rw [hcrossed, Set.ncard_pair (by decide)]
    exact even_two
  · -- the roof is met, but does not count
    have hcrossed :
        {i | ((blade.face i).crossedByRay ⟨⟨0, 0, -1e-9⟩, Solid.probe⟩).isSome = true} = ∅ := by
      refine Set.eq_empty_of_forall_notMem fun i => ?_
      rw [Set.mem_ofPred_eq, Triangle.isSome_crossedByRay_iff]
      match i with
      | 0 => exact fun h => not_metBy_blade_sides.1 h.2
      | 1 => exact fun h => not_metBy_blade_bottom (by norm_num) h.2
      | 2 => exact fun h => not_metBy_blade_sides.2 h.2
      | 3 => exact fun h => h.1 nearlyParallel_blade_roof
    rw [hcrossed, Set.ncard_empty]
    exact .zero

end Tree

end Isomesh
