import Mathlib
import Isomesh.Proofs.EdgeCounts
import Isomesh.Proofs.SignedVolume
import Isomesh.Proofs.SimplifyManifold

/-!
# Simplification of flat parts keeps the volume

With no tolerance the test of an edge compares the unit normals of all triangles there with the first of
them. An edge that waits belongs to a triangle, and the test meets that one at both ends. So the first
normal cannot be that of a degenerate triangle, all of them are the same, and the whole neighbourhood
lies in one plane. A collapse moves corners within this plane. Each run ends, with a balanced surface of
the same volume.

* `Mesh.Coherent.isFlatAround_of_normal`, `Mesh.Coherent.exists_normal`: the test, with no tolerance.
* `Triangle.dot_eq_of_normal`: a unit normal is normal to its triangle.
* `Mesh.Coherent.exists_plane`: the plane of an approved edge.
* `Simplifying.Flat`: the invariant of a run.
* `Mesh.simplifyFlat_keeps_volume`: the main result.
-/

set_option autoImplicit false

namespace Isomesh

variable {K : Type} [Field K] [LinearOrder K] [IsStrictOrderedRing K] [FloorRing K] [SquareRoot K]

/-- In exact arithmetic a segment is known by its key. -/
theorem Segment.key_inj {e f : Segment K} : e.key = f.key ↔ e = f := by
  constructor
  · intro h
    obtain ⟨hlo, hhi⟩ := (EdgeKey.mk.injEq ..).mp h
    cases e
    cases f
    cases Exact.key_inj.1 hlo
    cases Exact.key_inj.1 hhi
    rfl
  · exact fun h => h ▸ rfl

/-! ## Triangles with areas -/

section Areas

variable {t : Triangle K}

/-- The area normal has the same inner product with all corners. -/
theorem Triangle.areaNormal_dot {p : Vec3 K} (hp : p ∈ t.corners) :
    t.areaNormal.dot p = t.triple := by
  simp only [corners, List.mem_cons, List.not_mem_nil, or_false] at hp
  rcases hp with rfl | rfl | rfl <;>
    simp only [areaNormal, triple, Vec3.dot, Vec3.cross, Vec3.sub_def] <;> ring

theorem Triangle.nodup_keys_of_hasArea (h : t.hasArea = true) : t.keys.Nodup := by
  have hne {e : Vec3 K × Vec3 K} (he : e ∈ t.sides) : e.1.key ≠ e.2.key := fun hkey =>
    ne_of_mem_sides h he (Exact.key_inj.1 hkey)
  have hab : t.a.key ≠ t.b.key := hne (e := (t.a, t.b)) (by simp [sides])
  have hbc : t.b.key ≠ t.c.key := hne (e := (t.b, t.c)) (by simp [sides])
  have hca : t.c.key ≠ t.a.key := hne (e := (t.c, t.a)) (by simp [sides])
  exact nodup_keys_iff.2 ⟨hab, hca.symm, hbc⟩

theorem Triangle.lo_ne_hi_of_hasEdge {s : Segment K} (harea : t.hasArea = true)
    (hedge : t.hasEdge s.key = true) : s.lo ≠ s.hi := by
  obtain ⟨e, he, hkey⟩ := hasEdge_iff.1 hedge
  obtain ⟨side, hside, rfl⟩ := List.mem_map.1 he
  have hne := Segment.lo_ne_hi_between (ne_of_mem_sides harea hside)
  obtain ⟨hlo, hhi⟩ := (EdgeKey.mk.injEq ..).mp hkey
  rwa [Exact.key_inj.1 hlo, Exact.key_inj.1 hhi] at hne

end Areas

/-! ## Unit normals -/

namespace Vec3

theorem eq_of_dot_eq_one {u v : Vec3 K} (hu : u.normSq = 1) (hv : v.normSq = 1) (h : u.dot v = 1) :
    u = v := by
  have hdiff : (u - v).normSq = u.normSq - 2 * u.dot v + v.normSq := by
    simp only [normSq, dot, sub_def]
    ring
  have hzero : (u - v).normSq = 0 := by
    rw [hdiff, hu, hv, h]
    norm_num
  exact eq_of_normSq_sub_eq_zero hzero

theorem dot_midpoint (n p q : Vec3 K) : n.dot (p.midpoint q) = (n.dot p + n.dot q) / 2 := by
  simp only [midpoint_eq, dot]
  ring

theorem dot_zero (v : Vec3 K) : v.dot zero = 0 := by simp [dot, zero]

section Unit

variable [ExactRoot K]

/-- A vector at length one is either the zero vector, or a unit vector along the one it comes from. -/
theorem unit_eq_zero_or (v : Vec3 K) :
    v.unit = zero ∨ v.unit.normSq = 1 ∧ ∃ r, r ≠ 0 ∧ ∀ p, v.dot p = v.unit.dot p * r := by
  unfold unit
  by_cases h : v.norm ≤ 0
  · exact .inl (if_pos h)
  · have hr : v.norm ≠ 0 := (lt_of_not_ge h).ne'
    refine .inr ?_
    simp only [if_neg h]
    refine ⟨?_, v.norm, hr, fun p => ?_⟩
    · have hsq := v.norm_mul_norm
      simp only [normSq, dot, divide] at hsq ⊢
      field_simp
      linear_combination -hsq
    · simp only [dot, divide]
      field_simp

/-- A unit vector is the one along its positive multiples. -/
theorem unit_scale {n : Vec3 K} (hn : n.normSq = 1) {r : K} (hr : 0 < r) : (n.scale r).unit = n := by
  have hone : n.norm = 1 :=
    (mul_self_inj n.norm_nonneg zero_le_one).1 (n.norm_mul_norm.trans (hn.trans (mul_one 1).symm))
  unfold unit
  simp only [norm_scale n hr.le, hone, one_mul, if_neg hr.not_ge]
  simp only [divide, scale, mul_div_cancel_right₀ _ hr.ne']

theorem normSq_unit_of_dot {u v : Vec3 K} (h : v.unit.dot u = 1) : v.unit.normSq = 1 := by
  refine v.unit_eq_zero_or.elim (fun hzero => ?_) And.left
  rw [hzero, dot_comm, dot_zero] at h
  exact absurd h zero_ne_one

theorem exists_of_normSq_unit {v : Vec3 K} (h : v.unit.normSq = 1) :
    ∃ r, r ≠ 0 ∧ ∀ p, v.dot p = v.unit.dot p * r := by
  refine v.unit_eq_zero_or.elim (fun hzero => ?_) And.right
  rw [hzero, normSq, dot_zero] at h
  exact absurd h zero_ne_one

end Unit

end Vec3

/-- Zero is a tolerance. -/
theorem Mesh.simplifyFlat_zero (m : Mesh K) : m.simplifyFlat 0 = .ok (m.simplify (isFlatAround 0)) := by
  refine if_pos ?_
  rw [Exact.isFinite_eq_true, Bool.true_and, decide_eq_true_eq]

/-- With no tolerance the test compares the normals with the first one for equality. -/
theorem Mesh.dot_first_of_isFlatAround {m : Mesh K} {s : Segment K} {first t : Triangle K}
    {rest : List (Triangle K)} (h : m.isFlatAround 0 s = true)
    (hlist : s.ends.flatMap (fun p => m.named (m.trianglesAt p)) = first :: rest) (ht : t ∈ rest) :
    t.normal.dot first.normal = 1 := by
  rw [isFlatAround, hlist] at h
  simp only [List.map_cons, List.all_map, List.all_eq_true, Function.comp_apply, Bool.not_eq_true',
    decide_eq_false_iff_not] at h
  have habs := h t ht
  unfold Scalar.abs at habs
  split at habs <;> linarith

/-- An edge is approved where all triangles at its ends have one unit normal. -/
theorem Mesh.Coherent.isFlatAround_of_normal {m : Mesh K} {s : Segment K} {n : Vec3 K}
    (h : m.Coherent) (hn : n.normSq = 1)
    (hnormal : ∀ u ∈ m.triangles, u.atEnd s = true → u.normal = n) : m.isFlatAround 0 s = true := by
  have hall : ∀ v ∈ (s.ends.flatMap fun p => m.named (m.trianglesAt p)).map Triangle.normal,
      v = n := by
    refine List.forall_mem_map.2 fun u hu => ?_
    obtain ⟨p, hp, hu⟩ := List.mem_flatMap.1 hu
    obtain ⟨hu, hcorner⟩ := h.mem_named_trianglesAt.1 hu
    rw [Segment.ends, List.mem_pair] at hp
    rw [Triangle.hasCorner_iff] at hcorner
    refine hnormal u hu (Triangle.atEnd_iff.2 ?_)
    rcases hp with rfl | rfl
    · exact .inl hcorner
    · exact .inr hcorner
  have hone : n.dot n - 1 = 0 := sub_eq_zero.2 hn
  unfold isFlatAround
  generalize (s.ends.flatMap fun p => m.named (m.trianglesAt p)).map Triangle.normal = normals at hall
  cases normals with
  | nil => rfl
  | cons first rest =>
    obtain ⟨hfirst, hrest⟩ := List.forall_mem_cons.1 hall
    refine List.all_eq_true.2 fun v hv => ?_
    rw [hfirst, hrest v hv, hone, Exact.abs_eq_abs]
    simp

variable [ExactRoot K]

namespace Triangle

variable {t : Triangle K} {n : Vec3 K}

/-- A unit normal is normal to its triangle. -/
theorem dot_eq_of_normal (h : t.normal = n) (hn : n.normSq = 1) {p q : Vec3 K} (hp : p ∈ t.corners)
    (hq : q ∈ t.corners) : n.dot p = n.dot q := by
  subst h
  obtain ⟨r, hr, hdot⟩ := Vec3.exists_of_normSq_unit hn
  refine mul_right_cancel₀ hr ?_
  rw [normal, ← hdot, ← hdot, areaNormal_dot hp, areaNormal_dot hq]

theorem hasArea_of_normal (h : t.normal = n) (hn : n.normSq = 1) : t.hasArea = true := by
  subst h
  obtain ⟨r, hr, hdot⟩ := Vec3.exists_of_normSq_unit hn
  rw [hasArea, decide_eq_true_eq]
  refine t.areaNormal.normSq_nonneg.lt_of_ne' ?_
  rw [Vec3.normSq, hdot, Vec3.dot_comm, hdot]
  exact mul_ne_zero (mul_ne_zero (hn.trans_ne one_ne_zero) hr) hr

end Triangle

/-! ## The test of an edge -/

namespace Mesh

variable {m : Mesh K} {s : Segment K} {t : Triangle K}

/-- The unit normals at an approved edge of a triangle are the same. The triangle is listed at both
ends, so its normal is compared with the first one even if it is the first itself. -/
theorem Coherent.exists_normal (h : m.Coherent) (hflat : m.isFlatAround 0 s = true)
    (ht : t ∈ m.triangles) (hboth : t.atBoth s = true) :
    ∃ n : Vec3 K, n.normSq = 1 ∧ ∀ u ∈ m.triangles, u.atEnd s = true → u.normal = n := by
  obtain ⟨hlo, hhi⟩ := (Bool.and_eq_true ..).mp hboth
  obtain ⟨first, atLo, hatLo⟩ : ∃ first rest, m.named (m.trianglesAt s.lo) = first :: rest :=
    List.exists_cons_of_ne_nil (List.ne_nil_of_mem (h.mem_named_trianglesAt.2 ⟨ht, hlo⟩))
  have hlist : s.ends.flatMap (fun p => m.named (m.trianglesAt p)) =
      first :: (atLo ++ m.named (m.trianglesAt s.hi)) := by
    simp [Segment.ends, hatLo]
  have hdot := fun u => m.dot_first_of_isFlatAround (t := u) hflat hlist
  have htdot := hdot t (List.mem_append_right _ (h.mem_named_trianglesAt.2 ⟨ht, hhi⟩))
  have hfirst : first.normal.normSq = 1 := Vec3.normSq_unit_of_dot ((Vec3.dot_comm _ _).trans htdot)
  refine ⟨first.normal, hfirst, fun u hu hend => ?_⟩
  have hmem : u ∈ first :: (atLo ++ m.named (m.trianglesAt s.hi)) := by
    rw [← List.cons_append, ← hatLo, List.mem_append, h.mem_named_trianglesAt,
      h.mem_named_trianglesAt]
    exact ((Bool.or_eq_true ..).mp hend).imp (⟨hu, ·⟩) (⟨hu, ·⟩)
  rcases List.mem_cons.1 hmem with rfl | hrest
  · rfl
  · have hudot := hdot u hrest
    exact Vec3.eq_of_dot_eq_one (Vec3.normSq_unit_of_dot hudot) hfirst hudot

/-- The triangles at an approved edge lie in one plane and have areas. -/
theorem Coherent.exists_plane (h : m.Coherent) (hflat : m.isFlatAround 0 s = true)
    (ht : t ∈ m.triangles) (hboth : t.atBoth s = true) :
    ∃ (n : Vec3 K) (d : K), n.normSq = 1 ∧ n.dot s.mid = d ∧
      ∀ u ∈ m.triangles, u.atEnd s = true → u.hasArea = true ∧ ∀ p ∈ u.corners, n.dot p = d := by
  obtain ⟨n, hn, hnormal⟩ := h.exists_normal hflat ht hboth
  obtain ⟨hlo, hhi⟩ := Triangle.atBoth_iff.1 hboth
  have hends : n.dot s.hi = n.dot s.lo :=
    Triangle.dot_eq_of_normal (hnormal t ht (Triangle.atEnd_iff.2 (.inl hlo))) hn hhi hlo
  refine ⟨n, n.dot s.lo, hn, ?_, fun u hu hend => ?_⟩
  · rw [Segment.mid, Vec3.dot_midpoint, hends]
    ring
  · have hun := hnormal u hu hend
    refine ⟨Triangle.hasArea_of_normal hun hn, fun p hp => ?_⟩
    rcases Triangle.atEnd_iff.1 hend with hcorner | hcorner
    · exact Triangle.dot_eq_of_normal hun hn hp hcorner
    · rw [← hends]
      exact Triangle.dot_eq_of_normal hun hn hp hcorner

/-- **The collapse of an approved edge** keeps a surface balanced and its volume. -/
theorem Coherent.collapse_of_isFlatAround (h : m.Coherent) (hflat : m.isFlatAround 0 s = true)
    (ht : t ∈ m.triangles) (hedge : t.hasEdge s.key = true) (hbalanced : Balanced m.triangles)
    (waiting : EdgeSet K) :
    s.lo.key ≠ s.hi.key ∧ Balanced (m.collapse s waiting).mesh.triangles ∧
      sixfoldVolume (m.collapse s waiting).mesh.triangles = sixfoldVolume m.triangles := by
  have hboth := Triangle.atBoth_of_hasEdge hedge
  obtain ⟨n, d, hn, hmid, hplane⟩ := h.exists_plane hflat ht hboth
  have hend : t.atEnd s = true := Triangle.atEnd_iff.2 (.inl (Triangle.atBoth_iff.1 hboth).1)
  have hne : s.lo.key ≠ s.hi.key := fun hkey =>
    Triangle.lo_ne_hi_of_hasEdge (hplane t ht hend).1 hedge (Exact.key_inj.1 hkey)
  have hstar : ∀ u ∈ m.triangles, u.atEnd s = true → u.keys.Nodup := fun u hu hend =>
    Triangle.nodup_keys_of_hasArea (hplane u hu hend).1
  refine ⟨hne, h.balanced_collapse waiting hne hstar hbalanced, ?_⟩
  have hmoved : sixfoldVolume (m.triangles.map (·.map s.contract)) = sixfoldVolume m.triangles := by
    refine sixfoldVolume_map_of_plane hbalanced (hn.trans_ne one_ne_zero) (d := d) fun u hu => ?_
    cases hend : u.atEnd s with
    | false => exact .inl (Triangle.map_contract_of_not_atEnd hend)
    | true =>
      refine .inr fun p hp => ⟨(hplane u hu hend).2 p hp, ?_⟩
      unfold Segment.contract
      split
      · exact hmid
      · exact (hplane u hu hend).2 p hp
  have hdropped : sixfoldVolume ((m.triangles.filter (Triangle.atBoth s)).map (·.map s.contract)) =
      0 := by
    refine sixfoldVolume_of_not_nodup (List.forall_mem_map.2 fun u hu => ?_)
    exact Triangle.not_nodup_map_contract hne (List.mem_filter.1 hu).2
  rw [← hmoved, sixfoldVolume_perm (h.perm_contract waiting hstar), sixfoldVolume_append, hdropped,
    add_zero]

end Mesh

/-! ## Runs -/

/-- What holds throughout a simplification of flat parts: the surface is balanced and has a given
volume. -/
structure Simplifying.Flat (volume : K) (w : Simplifying K) : Prop where
  attached : w.Attached
  balanced : Balanced w.mesh.triangles
  volume : sixfoldVolume w.mesh.triangles = volume

theorem Simplifying.Flat.collapse {volume : K} {w : Simplifying K} (h : w.Flat volume) (asked : Nat)
    {s : Segment K} (rest : List (Segment K)) (hs : s.key ∈ w.waiting)
    (hflat : w.mesh.isFlatAround 0 s = true) : (w.collapse asked s rest).Flat volume := by
  obtain ⟨t, ht, hedge, -⟩ := h.attached.exists_atBoth hs
  obtain ⟨hne, hbalanced, hvolume⟩ :=
    h.attached.coherent.collapse_of_isFlatAround hflat ht hedge h.balanced w.waiting
  exact ⟨h.attached.collapse hne asked rest, hbalanced, hvolume.trans h.volume⟩

/-- **Simplification of flat parts keeps the volume.** With no tolerance it ends on every balanced mesh,
whatever triangles are degenerate and wherever midpoints land, and returns a balanced mesh with the same
signed volume. -/
theorem Mesh.simplifyFlat_keeps_volume {m : Mesh K} (hbalanced : Balanced m.triangles) :
    ∃ done, m.simplifyFlat 0 = .ok (some done) ∧ Balanced done.mesh.triangles ∧
      sixfoldVolume done.mesh.triangles = sixfoldVolume m.triangles := by
  have htriangles := Simplifying.triangles_start m
  have hstart : (Simplifying.start m).Flat (sixfoldVolume m.triangles) :=
    ⟨Simplifying.attached_start m, htriangles ▸ hbalanced, htriangles ▸ rfl⟩
  obtain ⟨done, v, hrun, hv, hmesh⟩ := Simplifying.exists_run (Mesh.isFlatAround 0)
    (Simplifying.Flat (sixfoldVolume m.triangles))
    (fun w asked s rest hw hs _ hflat =>
      ⟨hw.collapse asked rest hs hflat, hw.attached.triangleCount_collapse_lt hs asked rest⟩)
    hstart m.triangleCount_start_lt_stepLimit
  refine ⟨done, ?_, hmesh ▸ hv.balanced, hmesh ▸ hv.volume⟩
  rw [m.simplifyFlat_zero, simplify, hrun]

/-! A tetrahedron whose base is divided at two inner points. The edge between these is flat and can be
collapsed. Keys of real points cannot be compared by computation, so its facts are proved one by one. -/

namespace DividedBase

/-- The corners of the base. -/
def left : Vec3 ℝ := ⟨-6, -6, 0⟩

@[inherit_doc left]
def right : Vec3 ℝ := ⟨6, -6, 0⟩

@[inherit_doc left]
def back : Vec3 ℝ := ⟨0, 6, 0⟩

/-- The corner above the base. -/
def top : Vec3 ℝ := ⟨0, 0, 6⟩

/-- The inner points of the base. -/
def near : Vec3 ℝ := ⟨0, 0, 0⟩

@[inherit_doc near]
def far : Vec3 ℝ := ⟨0, 1, 0⟩

/-- The divided base, seen from below. -/
def base : List (Triangle ℝ) :=
  [⟨far, near, left⟩, ⟨far, right, near⟩, ⟨near, right, left⟩, ⟨far, back, right⟩, ⟨far, left, back⟩]

/-- The other three faces. -/
def slopes : List (Triangle ℝ) := [⟨right, back, top⟩, ⟨back, left, top⟩, ⟨left, right, top⟩]

/-- The surface of the tetrahedron. -/
def surface : List (Triangle ℝ) := base ++ slopes

theorem balanced_surface : Balanced surface := by
  have hpairs : IsBalanced ([(5, 4), (4, 0), (0, 5), (5, 1), (1, 4), (4, 5), (4, 1), (1, 0), (0, 4),
      (5, 2), (2, 1), (1, 5), (5, 0), (0, 2), (2, 5), (1, 2), (2, 3), (3, 1), (2, 0), (0, 3), (3, 2),
      (0, 1), (1, 3), (3, 0)] : List (Fin 6 × Fin 6)) := by
    unfold IsBalanced
    decide
  exact hpairs.map fun i => (![left, right, back, top, near, far] i).key

theorem near_before_far : (compare near.key far.key).isLE := by
  have hx : compare near.key.x far.key.x = .eq := Std.ReflCmp.compare_self
  have hy : compare near.key.y far.key.y = .lt := by
    show compareLex (compareOn fun x : ℝ => decide (x < 0)) (compareOn fun x : ℝ => |x|) 0 1 = .lt
    norm_num [compareLex, compareOn, compare_lt_iff_lt]
  show (compareLex (compareOn VertexKey.x) (compareLex (compareOn VertexKey.y)
    (compareOn VertexKey.z)) near.key far.key).isLE
  simp [compareLex, compareOn, hx, hy]

/-- The edge between the inner points. -/
def inner : Segment ℝ := ⟨near, far, near_before_far⟩

theorem normal_of_mem_base {t : Triangle ℝ} (ht : t ∈ base) : t.normal = ⟨0, 0, -1⟩ := by
  obtain ⟨r, hr, hdown⟩ : ∃ r > 0, t.areaNormal = Vec3.scale ⟨0, 0, -1⟩ r := by
    refine ⟨-t.areaNormal.z, ?_⟩
    simp only [base, List.mem_cons, List.not_mem_nil, or_false] at ht
    rcases ht with rfl | rfl | rfl | rfl | rfl <;>
      norm_num [Triangle.areaNormal, Vec3.cross, Vec3.sub_def, Vec3.scale, left, right, back, near, far]
  rw [Triangle.normal, hdown]
  exact Vec3.unit_scale (by norm_num [Vec3.normSq, Vec3.dot]) hr

/-- Only triangles of the base are at the inner points. -/
theorem normal_of_atEnd {t : Triangle ℝ} (ht : t ∈ surface) (hend : t.atEnd inner = true) :
    t.normal = ⟨0, 0, -1⟩ := by
  have haway : ∀ t ∈ slopes, near ∉ t.corners ∧ far ∉ t.corners := by
    simp [slopes, left, right, back, top, near, far, Triangle.corners]
  refine normal_of_mem_base ((List.mem_append.1 ht).resolve_right fun hslope => ?_)
  obtain ⟨hnear, hfar⟩ := haway t hslope
  exact (Triangle.atEnd_iff.1 hend).elim hnear hfar

/-- All vertices next to the first inner point are apexes over the edge. -/
theorem exists_apex {k : VertexKey ℝ} (haway : inner.hasEnd k = false)
    (hnext : ∃ t ∈ surface, t.hasCorner near.key = true ∧ t.hasCorner k = true) :
    ∃ t ∈ surface, t.atBoth inner = true ∧ t.hasCorner k = true := by
  simp only [Segment.hasEnd, Triangle.atBoth, ← Triangle.mem_keys_iff_hasCorner, Bool.and_eq_true,
    Bool.or_eq_false_iff, inner] at haway hnext ⊢
  simp [surface, base, slopes, left, right, back, top, near, far, Triangle.keys, Triangle.corners,
    Exact.key_inj] at haway hnext ⊢
  tauto

theorem sidesAcross_surface :
    Mesh.sidesAcross surface near far ++ Mesh.sidesAcross surface far near =
      [(right, left), (back, right), (left, back)] := by
  simp [Mesh.sidesAcross, surface, base, slopes, left, right, back, top, near, far,
    Triangle.hasCorner, Triangle.placeOf, Triangle.following, Exact.key_inj]

theorem canCollapse_inner {m : Mesh ℝ} (h : m.Coherent) (hm : m.triangles = surface) :
    m.canCollapse inner = true := by
  rw [h.canCollapse_iff, hm, inner, sidesAcross_surface]
  refine ⟨fun k haway hnext _ => exists_apex haway hnext, ?_, ?_⟩
  · refine List.Nodup.of_map (fun k : EdgeKey ℝ => s(k.lo, k.hi)) ?_
    have hpair (s : Segment ℝ) : s(s.key.lo, s.key.hi) = s.pair := rfl
    norm_num [hpair, Segment.pair_between, Exact.key_inj, left, right, back]
  · norm_num [Mesh.turnsOver, left, right, back, near, far, Triangle.areaNormal, Vec3.cross, Vec3.dot,
      Vec3.sub_def]

theorem inner_mem_edges {m : Mesh ℝ} (hm : m.triangles = surface) : inner ∈ m.edges := by
  have ht : (⟨far, near, left⟩ : Triangle ℝ) ∈ m.triangles := by simp [hm, surface, base]
  obtain ⟨s, hs, hkey⟩ := Mesh.exists_mem_edges ht (List.mem_cons_self ..)
  rw [Segment.key_between_comm, Segment.between_of_isLE near_before_far, Segment.key_inj] at hkey
  rwa [inner, ← hkey]

theorem sixfoldVolume_surface : sixfoldVolume surface = 864 := by
  norm_num [sixfoldVolume, surface, base, slopes, left, right, back, top, near, far, Triangle.triple,
    Vec3.dot, Vec3.cross]

end DividedBase

/-- Real coordinates have exact roots. The run collapses edges of the base, and keeps the volume. -/
theorem dividedBase_keeps_volume :
    ∃ done, (Mesh.ofTriangles DividedBase.surface).simplifyFlat 0 = .ok (some done) ∧
      done.collapsed ≠ [] ∧ Balanced done.mesh.triangles ∧
      sixfoldVolume done.mesh.triangles = 864 := by
  have hm := Mesh.triangles_ofTriangles DividedBase.surface
  obtain ⟨done, hrun, hbalanced, hvolume⟩ :=
    Mesh.simplifyFlat_keeps_volume (hm.symm ▸ DividedBase.balanced_surface)
  have hstart := (Simplifying.attached_start (Mesh.ofTriangles DividedBase.surface)).coherent
  have htriangles := (Simplifying.triangles_start (Mesh.ofTriangles DividedBase.surface)).trans hm
  have hflat : (Simplifying.start (Mesh.ofTriangles DividedBase.surface)).mesh.isFlatAround 0
      DividedBase.inner = true :=
    hstart.isFlatAround_of_normal (n := ⟨0, 0, -1⟩) (by norm_num [Vec3.normSq, Vec3.dot])
      fun t ht => DividedBase.normal_of_atEnd (htriangles ▸ ht)
  rw [hm, DividedBase.sixfoldVolume_surface] at hvolume
  refine ⟨done, hrun, ?_, hbalanced, hvolume⟩
  rw [Mesh.simplifyFlat_zero, Except.ok.injEq] at hrun
  exact Mesh.collapsed_ne_nil (DividedBase.inner_mem_edges hm)
    (DividedBase.canCollapse_inner hstart htriangles) hflat hrun

end Isomesh
