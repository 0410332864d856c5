import Mathlib
import Isomesh.Distance
import Isomesh.Proofs.ClosestPoint

/-!
# The nearest point of a tree is the nearest of all triangles

A search skips a part of the tree when the box of the part is no nearer than the best point so far. In
exact arithmetic no point of a box is nearer than the box, and the box of a part holds the nearest
points of its triangles, so nothing that would be better is skipped.

* `Bounds.distSq_le_of_contains`: the box is at least as near as its points.
* `Tree.Searched`: what a search of some triangles does to the best point so far.
* `Tree.searched_search`: one search, by induction on the tree.
* `Tree.nearest_over_triangles`: the main result.
-/

set_option autoImplicit false

namespace Isomesh

variable {K : Type} [Field K] [LinearOrder K] [IsStrictOrderedRing K] [FloorRing K] [SquareRoot K]

/-! ## The distance to a box -/

namespace Bounds

variable {box : Bounds K} {p q : Vec3 K}

theorem excess_mul_self_le (h : box.contains q = true) (axis : Axis) :
    box.excess p axis * box.excess p axis ≤ (q - p).get axis * (q - p).get axis := by
  obtain ⟨hlo, hhi⟩ := contains_iff.1 h axis
  rw [Vec3.get_sub]
  simp only [excess]
  split_ifs with hbelow habove
  · exact mul_self_le_mul_self (sub_nonneg.2 hbelow.le) (sub_le_sub_right hlo _)
  · rw [← neg_mul_neg (q.get axis - p.get axis), neg_sub]
    exact mul_self_le_mul_self (sub_nonneg.2 habove.le) (sub_le_sub_left hhi _)
  · rw [zero_mul]
    exact mul_self_nonneg _

/-- **No point of a box is nearer than the box.** -/
theorem distSq_le_of_contains (h : box.contains q = true) : box.distSq p ≤ q.distSq p :=
  add_le_add (add_le_add (excess_mul_self_le h .x) (excess_mul_self_le h .y))
    (excess_mul_self_le h .z)

end Bounds

namespace Tree

/-! ## One search -/

/-- Whether there is a best point so far, no further than `d`. -/
def AtMost (best : Best K) (d : K) : Prop := ∃ found ∈ best, found.2 ≤ d

theorem improves_iff {d : K} {best : Best K} : improves d best = true ↔ ¬AtMost best d := by
  cases best with
  | none => simp [improves, AtMost, Exact.isFinite_eq_true]
  | some found => simp [improves, AtMost]

/-- What a search of some triangles does to the best point so far. -/
structure Searched (p : Vec3 K) (ts : List (Triangle K)) (before after : Best K) : Prop where
  origin : after = before ∨ ∃ t ∈ ts, after = some (t.closest p, (t.closest p).distSq p)
  covers : ∀ t ∈ ts, AtMost after ((t.closest p).distSq p)
  keeps : ∀ d, AtMost before d → AtMost after d

namespace Searched

variable {p : Vec3 K} {ts us : List (Triangle K)} {before best after : Best K}

/-- Nothing to do where no triangle is better. -/
theorem skip (h : ∀ t ∈ ts, AtMost best ((t.closest p).distSq p)) : Searched p ts best best :=
  ⟨.inl rfl, h, fun _ => id⟩

theorem of_offer (p : Vec3 K) (t : Triangle K) (best : Best K) :
    Searched p [t] best (offer p t best) := by
  unfold offer
  lift_lets
  extract_lets c d
  split_ifs with h
  · refine ⟨.inr ⟨t, List.mem_singleton_self t, rfl⟩, ?_, ?_⟩
    · rintro u hu
      rw [List.mem_singleton.1 hu]
      exact ⟨(c, d), rfl, le_rfl⟩
    · rintro e ⟨found, hfound, hle⟩
      have hbetter : ¬found.2 ≤ d := fun hle => improves_iff.1 h ⟨found, hfound, hle⟩
      exact ⟨(c, d), rfl, (not_le.1 hbetter).le.trans hle⟩
  · refine skip fun u hu => ?_
    rw [List.mem_singleton.1 hu]
    exact not_not.1 (mt improves_iff.2 h)

theorem append (h : Searched p ts before best) (h' : Searched p us best after) :
    Searched p (ts ++ us) before after := by
  refine ⟨?_, ?_, fun d hd => h'.keeps d (h.keeps d hd)⟩
  · rcases h'.origin with rfl | ⟨t, ht, hafter⟩
    · rcases h.origin with hbest | ⟨t, ht, hbest⟩
      · exact .inl hbest
      · exact .inr ⟨t, List.mem_append_left us ht, hbest⟩
    · exact .inr ⟨t, List.mem_append_right ts ht, hafter⟩
  · intro t ht
    rcases List.mem_append.1 ht with ht | ht
    · exact h'.keeps _ (h.covers t ht)
    · exact h'.covers t ht

theorem of_perm (hperm : ts.Perm us) (h : Searched p ts before after) : Searched p us before after := by
  refine ⟨h.origin.imp_right ?_, fun t ht => h.covers t (hperm.mem_iff.2 ht), h.keeps⟩
  rintro ⟨t, ht, hafter⟩
  exact ⟨t, hperm.mem_iff.1 ht, hafter⟩

/-- A part that is skipped because it is no nearer than the best point. -/
theorem pruned {bound : K} (hbound : ∀ t ∈ ts, bound ≤ (t.closest p).distSq p)
    (h : Searched p ts best after) :
    Searched p ts best (if improves bound best then after else best) := by
  split_ifs with hbetter
  · exact h
  · obtain ⟨found, hfound, hle⟩ := not_not.1 (mt improves_iff.2 hbetter)
    exact skip fun t ht => ⟨found, hfound, hle.trans (hbound t ht)⟩

end Searched

variable {tree : Tree K} {p : Vec3 K}

/-- The box of a tree is at least as near as the nearest points of its triangles. -/
theorem Boxed.distSq_le (h : tree.Boxed) {t : Triangle K} (ht : t ∈ tree.triangles)
    (harea : t.hasArea = true) : tree.bounds.distSq p ≤ (t.closest p).distSq p :=
  Bounds.distSq_le_of_contains (h.contains_bounds ht (t.hasPoint_closest harea p))

/-- **One search**, whichever part comes first. -/
theorem searched_search (h : tree.Boxed) (harea : ∀ t ∈ tree.triangles, t.hasArea = true)
    (best : Best K) : Searched p tree.triangles best (tree.search p best) := by
  induction tree generalizing best with
  | leaf t => exact .of_offer p t best
  | branch box left right hl hr =>
    obtain ⟨-, hleft, hright⟩ := h
    obtain ⟨hareaL, hareaR⟩ := List.forall_mem_append.1 harea
    have hL := fun best => (hl hleft hareaL best).pruned fun t ht => hleft.distSq_le ht (hareaL t ht)
    have hR := fun best => (hr hright hareaR best).pruned fun t ht => hright.distSq_le ht (hareaR t ht)
    rw [search]
    by_cases hnearer : left.bounds.distSq p ≤ right.bounds.distSq p
    · rw [if_pos hnearer]
      exact (hL best).append (hR _)
    · rw [if_neg hnearer]
      exact ((hR best).append (hL _)).of_perm List.perm_append_comm

/-! ## Searching from the start -/

/-- The search ends at the nearest point of some triangle, and no triangle has a nearer one. -/
theorem nearest_eq_some (h : tree.Boxed) (harea : ∀ t ∈ tree.triangles, t.hasArea = true)
    (p : Vec3 K) : ∃ t ∈ tree.triangles,
      tree.nearest p = some (t.closest p, (t.closest p).distSq p) ∧
        ∀ u ∈ tree.triangles, (t.closest p).distSq p ≤ (u.closest p).distSq p := by
  have hsearched : Searched p tree.triangles none (tree.nearest p) := searched_search h harea none
  rcases hsearched.origin with hnone | ⟨t, ht, hfound⟩
  · obtain ⟨t, ht⟩ := List.exists_mem_of_ne_nil _ tree.triangles_ne_nil
    obtain ⟨found, hfound, -⟩ := hsearched.covers t ht
    rw [hnone] at hfound
    cases hfound
  · refine ⟨t, ht, hfound, fun u hu => ?_⟩
    obtain ⟨found, hmem, hle⟩ := hsearched.covers u hu
    rw [hfound] at hmem
    cases hmem
    exact hle

/-! ## Trees over the same triangles -/

/-- The squared distances from a point to each of some triangles. -/
def distSqs (ts : List (Triangle K)) (p : Vec3 K) : Set K := {d | ∃ t ∈ ts, (t.closest p).distSq p = d}

/-- The answers of a tree about the place nearest to `p`, where `d` is the squared distance. -/
structure AnswersNearest (ts : List (Triangle K)) (p : Vec3 K) (d : K) (tree : Tree K) : Prop where
  closest_mem : ∃ t ∈ ts, tree.closest p = t.closest p
  distSq_closest : (tree.closest p).distSq p = d
  dist_eq : tree.dist p = Scalar.sqrt d
  /-- The squared distance is the square of the distance, where the root of it is exact. -/
  dist_mul_self : Scalar.sqrt d * Scalar.sqrt d = d → tree.dist p * tree.dist p = d
  signedNearest_eq : tree.signedNearest p = (tree.closest p, tree.signedDist p)

theorem Boxed.answersNearest (h : tree.Boxed) {ts : List (Triangle K)} (hperm : tree.triangles.Perm ts)
    (harea : ∀ t ∈ ts, t.hasArea = true) {d : K} (hd : IsLeast (distSqs ts p) d) :
    AnswersNearest ts p d tree := by
  obtain ⟨t, ht, hnearest, hleast⟩ :=
    nearest_eq_some h (fun t ht => harea t (hperm.mem_iff.1 ht)) p
  have hclosest : tree.closest p = t.closest p := by rw [closest, hnearest]
  have hdistSq : (t.closest p).distSq p = d := by
    refine le_antisymm ?_ (hd.2 ⟨t, hperm.mem_iff.1 ht, rfl⟩)
    obtain ⟨u, hu, hleastU⟩ := hd.1
    rw [← hleastU]
    exact hleast u (hperm.mem_iff.2 hu)
  have hdist : tree.dist p = Scalar.sqrt d := by rw [dist, hnearest, ← hdistSq]
  refine ⟨⟨t, hperm.mem_iff.1 ht, hclosest⟩, hclosest ▸ hdistSq, hdist, fun hroot => ?_, ?_⟩
  · rw [hdist, hroot]
  · rw [signedNearest, signedDist, hdist, ← hdistSq, hclosest]
    rfl

/-- **Every tree over some triangles answers with the nearest of them**: the trees of the list in any
order, and those of the meshes that consist of the triangles. -/
theorem nearest_over_triangles {ts : List (Triangle K)} (hne : ts ≠ [])
    (harea : ∀ t ∈ ts, t.hasArea = true) (p : Vec3 K) :
    ∃ d, IsLeast (distSqs ts p) d ∧
      (∀ us : List (Triangle K), us.Perm ts →
        ∃ tree, ofList us = .ok tree ∧ tree.AnswersNearest ts p d) ∧
      (∀ m : Mesh K, m.triangles.Perm ts →
        ∃ tree, ofMesh m = .ok tree ∧ tree.AnswersNearest ts p d) := by
  obtain ⟨tree, -, rfl, hboxed⟩ := exists_ofList hne
  obtain ⟨t, ht, -, hleast⟩ := nearest_eq_some hboxed harea p
  have hd : IsLeast (distSqs tree.triangles p) ((t.closest p).distSq p) := by
    refine ⟨⟨t, ht, rfl⟩, ?_⟩
    rintro e ⟨u, hu, rfl⟩
    exact hleast u hu
  have hlist : ∀ us : List (Triangle K), us.Perm tree.triangles →
      ∃ other, ofList us = .ok other ∧
        other.AnswersNearest tree.triangles p ((t.closest p).distSq p) := by
    intro us hperm
    have hus : us ≠ [] := fun hnil => hne (hnil ▸ hperm).symm.eq_nil
    obtain ⟨other, hother, rfl, hboxed'⟩ := exists_ofList hus
    exact ⟨other, hother, hboxed'.answersNearest hperm harea hd⟩
  exact ⟨_, hd, hlist, fun m hperm => hlist _ ((groupTriangles_perm m.triangles).trans hperm)⟩

/-- A triangle and its mirror image above. -/
def floorAndRoof : List (Triangle ℚ) :=
  [⟨⟨0, 0, 0⟩, ⟨0, 2, 0⟩, ⟨2, 0, 0⟩⟩, ⟨⟨0, 0, 3⟩, ⟨2, 0, 3⟩, ⟨0, 2, 3⟩⟩]

theorem nearest_between_floor_and_roof :
    floorAndRoof ≠ [] ∧ (∀ t ∈ floorAndRoof, t.hasArea = true) ∧
      ∃ d, IsLeast (distSqs floorAndRoof ⟨2, 2, 1⟩) d ∧
        (∀ us : List (Triangle ℚ), us.Perm floorAndRoof →
          ∃ tree, ofList us = .ok tree ∧ tree.AnswersNearest floorAndRoof ⟨2, 2, 1⟩ d) ∧
        (∀ m : Mesh ℚ, m.triangles.Perm floorAndRoof →
          ∃ tree, ofMesh m = .ok tree ∧ tree.AnswersNearest floorAndRoof ⟨2, 2, 1⟩ d) := by
  have hne : floorAndRoof ≠ [] := List.cons_ne_nil _ _
  have harea : ∀ t ∈ floorAndRoof, t.hasArea = true := by decide +kernel
  exact ⟨hne, harea, nearest_over_triangles hne harea ⟨2, 2, 1⟩⟩

end Tree

end Isomesh
