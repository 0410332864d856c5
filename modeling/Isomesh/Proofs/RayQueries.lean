import Mathlib
import Isomesh.Distance
import Isomesh.Proofs.SlabTest

/-!
# A tree answers about rays as a scan of its triangles does

A question about a ray skips a part of the tree when the ray misses the box of the part. In exact
arithmetic a place where the ray crosses a triangle is a point of the triangle, so it is in every box
above the triangle and none of these is missed.

* `Mat3.apply_inverse`: the inverse of a matrix undoes it.
* `Triangle.hasPoint_of_crossedByRay`: where a ray crosses a triangle.
* `Tree.Boxed.meetsRay`: no box above a crossed triangle is missed.
* `Tree.FirstHit`: the earliest crossing of some triangles, the leftmost of several.
* `Tree.rays_over_triangles`: the main result.
-/

set_option autoImplicit false

namespace Isomesh

variable {K : Type} [Field K] [LinearOrder K] [IsStrictOrderedRing K] [FloorRing K] [SquareRoot K]

/-! ## Where a ray crosses a triangle -/

theorem Mat3.apply_inverse {m n : Mat3 K} (h : m.inverse? = some n) (v : Vec3 K) :
    m.apply (n.apply v) = v := by
  obtain ⟨⟨a, b, c⟩, ⟨e, f, g⟩, ⟨p, q, r⟩⟩ := m
  unfold inverse? at h
  lift_lets at h
  extract_lets d at h
  split_ifs at h with hzero
  have hd : d ≠ 0 := mt Exact.isZero_iff.2 hzero
  have hdet : d = a * (f * r - q * g) - b * (e * r - p * g) + c * (e * q - p * f) := rfl
  cases h
  refine Vec3.ext_get fun axis => ?_
  cases axis
  all_goals
    simp only [apply, Vec3.get, Vec3.dot, minor1, minor2, minor3]
    field_simp
    rw [hdet]
    ring

namespace Triangle

variable {t : Triangle K} {ray : Ray K} {s : K}

theorem hasPoint_of_crossedByLine (h : t.crossedByLine ray = some s) :
    t.HasPoint (ray.pointAt s) := by
  unfold crossedByLine at h
  lift_lets at h
  extract_lets u v m at h
  split_ifs at h with hflat
  obtain ⟨inverse, hinverse, h⟩ := Option.bind_eq_some_iff.1 h
  extract_lets place at h
  split_ifs at h with hinside
  cases h
  obtain ⟨hx, hy, hxy⟩ := hinside
  refine ⟨_, _, hx, hy, hxy, Vec3.ext_get fun axis => ?_⟩
  -- the three shares solve the equations of the crossing
  have hsolved := congrArg (Vec3.get · axis) (Mat3.apply_inverse hinverse (ray.origin - t.a))
  have hrow : ∀ w : Vec3 K, (m.apply w).get axis =
      u.get axis * w.x + v.get axis * w.y - ray.direction.get axis * w.z := by
    intro w
    cases axis
    all_goals
      simp only [m, Mat3.apply, Mat3.ofColumns, Vec3.get, Vec3.dot, Vec3.neg_def]
      ring
  simp only [hrow, Vec3.get_sub, u, v] at hsolved
  rw [Ray.get_pointAt, get_pointAt]
  linear_combination -hsolved

/-- **A ray crosses a triangle at a point of the triangle**, in the forward direction. -/
theorem hasPoint_of_crossedByRay (h : t.crossedByRay ray = some s) :
    0 ≤ s ∧ t.HasPoint (ray.pointAt s) := by
  obtain ⟨hline, hforward⟩ := Option.filter_eq_some_iff.1 h
  exact ⟨of_decide_eq_true hforward, hasPoint_of_crossedByLine hline⟩

end Triangle

namespace Tree

variable {tree : Tree K} {ray : Ray K}

/-! ## Parts that are skipped -/

/-- **No box above a crossed triangle is missed.** -/
theorem Boxed.meetsRay (h : tree.Boxed) {t : Triangle K} (ht : t ∈ tree.triangles) {s : K}
    (hs : t.crossedByRay ray = some s) : tree.bounds.meetsRay ray = true := by
  obtain ⟨hforward, hpoint⟩ := t.hasPoint_of_crossedByRay hs
  exact Bounds.meetsRay_of_contains hforward (h.contains_bounds ht hpoint)

theorem Boxed.crossedByRay_eq_none (h : tree.Boxed) (hmiss : ¬tree.bounds.meetsRay ray = true) :
    ∀ t ∈ tree.triangles, t.crossedByRay ray = none :=
  fun _ ht => Option.eq_none_iff_forall_ne_some.2 fun _ hs => hmiss (h.meetsRay ht hs)

/-! ## Counting -/

theorem countP_crossed_eq_zero {ts : List (Triangle K)} (h : ∀ t ∈ ts, t.crossedByRay ray = none) :
    ts.countP (fun t => (t.crossedByRay ray).isSome) = 0 := by
  refine List.countP_eq_zero.2 fun t ht => ?_
  rw [h t ht]
  exact Bool.false_ne_true

theorem Boxed.crossings_eq (h : tree.Boxed) (ray : Ray K) :
    tree.crossings ray = tree.triangles.countP fun t => (t.crossedByRay ray).isSome := by
  induction tree with
  | leaf t =>
    rw [crossings]
    split_ifs with hmeets
    · rw [Triangle.crossings, triangles, List.countP_singleton]
    · exact (countP_crossed_eq_zero (h.crossedByRay_eq_none hmeets)).symm
  | branch box left right hl hr =>
    rw [crossings]
    split_ifs with hmeets
    · rw [triangles, List.countP_append, hl h.2.1, hr h.2.2]
    · exact (countP_crossed_eq_zero (h.crossedByRay_eq_none hmeets)).symm

/-! ## The first crossing -/

/-- Whether an answer is the earliest crossing of some triangles, the leftmost of several. No answer
means that none is crossed. -/
def FirstHit (ray : Ray K) (ts : List (Triangle K)) : Option (Hit K) → Prop
  | none => ∀ t ∈ ts, t.crossedByRay ray = none
  | some hit => ∃ before t after, ts = before ++ t :: after ∧ t.crossedByRay ray = some hit.scale ∧
      hit.normal = t.normal ∧ (∀ u ∈ before, ∀ s ∈ u.crossedByRay ray, hit.scale < s) ∧
      ∀ u ∈ after, ∀ s ∈ u.crossedByRay ray, hit.scale ≤ s

namespace FirstHit

variable {ts us : List (Triangle K)} {hit : Hit K}

theorem scale_le (h : FirstHit ray ts (some hit)) :
    ∀ u ∈ ts, ∀ s ∈ u.crossedByRay ray, hit.scale ≤ s := by
  obtain ⟨before, t, after, rfl, hs, -, hbefore, hafter⟩ := h
  intro u hu s hus
  rcases List.mem_append.1 hu with hu | hu
  · exact (hbefore u hu s hus).le
  · rcases List.mem_cons.1 hu with rfl | hu
    · exact (Option.some_inj.1 (hs.symm.trans hus)).le
    · exact hafter u hu s hus

theorem append_of_le (h : FirstHit ray ts (some hit))
    (hus : ∀ u ∈ us, ∀ s ∈ u.crossedByRay ray, hit.scale ≤ s) : FirstHit ray (ts ++ us) (some hit) := by
  obtain ⟨before, t, after, rfl, hs, hnormal, hbefore, hafter⟩ := h
  exact ⟨before, t, after ++ us, List.append_assoc .., hs, hnormal, hbefore,
    List.forall_mem_append.2 ⟨hafter, hus⟩⟩

theorem append_of_lt (h : FirstHit ray us (some hit))
    (hts : ∀ u ∈ ts, ∀ s ∈ u.crossedByRay ray, hit.scale < s) : FirstHit ray (ts ++ us) (some hit) := by
  obtain ⟨before, t, after, rfl, hs, hnormal, hbefore, hafter⟩ := h
  exact ⟨ts ++ before, t, after, (List.append_assoc ..).symm, hs, hnormal,
    List.forall_mem_append.2 ⟨hts, hbefore⟩, hafter⟩

/-- **The earlier of two answers** is the answer for the triangles of both. -/
theorem append {a b : Option (Hit K)} (ha : FirstHit ray ts a) (hb : FirstHit ray us b) :
    FirstHit ray (ts ++ us) (earlier a b) := by
  have hnone : ∀ {vs : List (Triangle K)}, FirstHit ray vs none →
      ∀ (P : K → Prop), ∀ u ∈ vs, ∀ s ∈ u.crossedByRay ray, P s := by
    intro vs hvs P u hu s hs
    rw [Option.mem_def, hvs u hu] at hs
    cases hs
  cases a with
  | none =>
    cases b with
    | none => exact List.forall_mem_append.2 ⟨ha, hb⟩
    | some y => exact hb.append_of_lt (hnone ha _)
  | some x =>
    cases b with
    | none => exact ha.append_of_le (hnone hb _)
    | some y =>
      rw [earlier]
      split_ifs with hlt
      · exact hb.append_of_lt fun u hu s hs => hlt.trans_le (ha.scale_le u hu s hs)
      · exact ha.append_of_le fun u hu s hs => (not_lt.1 hlt).trans (hb.scale_le u hu s hs)

end FirstHit

/-- **The first crossing of a tree**, by induction on the tree. -/
theorem Boxed.firstHit (h : tree.Boxed) (ray : Ray K) :
    FirstHit ray tree.triangles (tree.firstHit ray) := by
  induction tree with
  | leaf t =>
    rw [Tree.firstHit]
    split_ifs with hmeets
    · rw [Triangle.firstHit]
      cases hs : t.crossedByRay ray with
      | none => exact List.forall_mem_singleton.2 hs
      | some s => exact ⟨[], t, [], rfl, hs, rfl, List.forall_mem_nil _, List.forall_mem_nil _⟩
    · exact h.crossedByRay_eq_none hmeets
  | branch box left right hl hr =>
    rw [Tree.firstHit]
    split_ifs with hmeets
    · exact (hl h.2.1).append (hr h.2.2)
    · exact h.crossedByRay_eq_none hmeets

/-! ## Trees over the same triangles -/

/-- The answers of a tree about rays are those of a scan of the triangles `ts` in their order. -/
structure AnswersRays (ts : List (Triangle K)) (tree : Tree K) : Prop where
  crossings_eq : ∀ ray, tree.crossings ray = ts.countP fun t => (t.crossedByRay ray).isSome
  firstHit : ∀ ray, FirstHit ray ts (tree.firstHit ray)

/-- Two trees count the same crossings on every ray and enclose the same points. -/
structure SameParity (tree other : Tree K) : Prop where
  crossings_eq : ∀ ray, other.crossings ray = tree.crossings ray
  contains_eq : ∀ p, (Solid.enclosedBy other.collider).contains p =
    (Solid.enclosedBy tree.collider).contains p

theorem Boxed.sameParity {other : Tree K} (h : tree.Boxed) (hother : other.Boxed)
    (hperm : other.triangles.Perm tree.triangles) : SameParity tree other := by
  have hcrossings : ∀ ray, other.crossings ray = tree.crossings ray := fun ray => by
    rw [hother.crossings_eq, h.crossings_eq, hperm.countP_eq]
  refine ⟨hcrossings, fun p => ?_⟩
  change (other.bounds.contains p && decide (other.crossings ⟨p, Solid.probe⟩ % 2 = 1)) = _
  rw [h.bounds_eq_of_perm hother hperm, hcrossings]
  rfl

/-- **A tree over some triangles answers about every ray as a scan of the list does**, and neither the
count nor what the tree encloses depends on how the triangles are arranged. -/
theorem rays_over_triangles {ts : List (Triangle K)} (hne : ts ≠ []) :
    ∃ tree, ofList ts = .ok tree ∧ tree.AnswersRays ts ∧
      (∀ us : List (Triangle K), us.Perm ts →
        ∃ other, ofList us = .ok other ∧ other.AnswersRays us ∧ SameParity tree other) ∧
      (∀ m : Mesh K, m.triangles.Perm ts →
        ∃ other, ofMesh m = .ok other ∧ other.AnswersRays (groupTriangles m.triangles) ∧
          SameParity tree other) := by
  obtain ⟨tree, htree, rfl, hboxed⟩ := exists_ofList hne
  have hlist : ∀ us : List (Triangle K), us.Perm tree.triangles →
      ∃ other, ofList us = .ok other ∧ other.AnswersRays us ∧ SameParity tree other := by
    intro us hperm
    have hus : us ≠ [] := fun hnil => hne (hnil ▸ hperm).symm.eq_nil
    obtain ⟨other, hother, rfl, hboxed'⟩ := exists_ofList hus
    exact ⟨other, hother, ⟨hboxed'.crossings_eq, hboxed'.firstHit⟩, hboxed.sameParity hboxed' hperm⟩
  exact ⟨tree, htree, ⟨hboxed.crossings_eq, hboxed.firstHit⟩, hlist,
    fun m hperm => hlist _ ((groupTriangles_perm m.triangles).trans hperm)⟩

/-- Two layers, which an upright ray crosses one after the other. -/
def layers : List (Triangle ℚ) :=
  [⟨⟨0, 0, 1⟩, ⟨1, 0, 1⟩, ⟨0, 1, 1⟩⟩, ⟨⟨0, 0, 0⟩, ⟨0, 1, 0⟩, ⟨1, 0, 0⟩⟩]

theorem rays_over_layers :
    layers ≠ [] ∧ ∃ tree, ofList layers = .ok tree ∧ tree.AnswersRays layers ∧
      (∀ us : List (Triangle ℚ), us.Perm layers →
        ∃ other, ofList us = .ok other ∧ other.AnswersRays us ∧ SameParity tree other) ∧
      (∀ m : Mesh ℚ, m.triangles.Perm layers →
        ∃ other, ofMesh m = .ok other ∧ other.AnswersRays (groupTriangles m.triangles) ∧
          SameParity tree other) := by
  have hne : layers ≠ [] := List.cons_ne_nil _ _
  exact ⟨hne, rays_over_triangles hne⟩

end Tree

end Isomesh
