import Isomesh.Proofs.CollapsedMesh

/-!
# The test before a collapse

The test reads the triangles at both ends of an edge through the index. On a coherent mesh it covers all
of them, whatever the arithmetic: keys alone decide which triangles meet.

* `Mesh.Coherent.linksAgree_iff`: vertices next to both ends.
* `Mesh.Coherent.perm_outerSides`: the triangles at one end only.
* `Mesh.Coherent.canCollapse_iff`: the whole test.
* `Mesh.outerSides_apart`: triangles at one end only lie over different edges.
-/

set_option autoImplicit false

namespace Isomesh.Mesh

variable {K : Type} [Scalar K] {m : Mesh K} {s : Segment K} {t : Triangle K}

/-- The sides across from `p` of those triangles that are at `p` but not at `q`. -/
def sidesAcross (ts : List (Triangle K)) (p q : Vec3 K) : List (Vec3 K × Vec3 K) :=
  ts.filterMap fun t => if t.hasCorner q.key then none else (t.placeOf p.key).map t.following

theorem mem_otherCorners {ts : List (Triangle K)} {k : VertexKey K} :
    k ∈ otherCorners s ts ↔ (∃ t ∈ ts, t.hasCorner k = true) ∧ s.hasEnd k = false := by
  simp only [otherCorners, List.mem_filter, List.mem_flatMap, Triangle.mem_keys_iff_hasCorner,
    Bool.not_eq_true']

/-- The sides across from the two ends, in triangles at one end only, are different. -/
theorem outerSides_apart (hcan : m.canCollapse s = true) {e e' : Vec3 K × Vec3 K}
    (he : e ∈ m.outerSides s.lo s.hi) (he' : e' ∈ m.outerSides s.hi s.lo) :
    (Segment.between e.1 e.2).key ≠ (Segment.between e'.1 e'.2).key := by
  simp only [canCollapse, Bool.and_eq_true, decide_eq_true_eq, List.map_append] at hcan
  exact (List.nodup_append.1 hcan.1.2).2.2 _ (List.mem_map_of_mem he) _ (List.mem_map_of_mem he')

namespace Coherent

theorem mem_named_of_mem_iff {ids : List TriangleId} {P : Triangle K → Prop}
    (hids : ∀ id, id ∈ ids ↔ ∃ u, m.get? id = some u ∧ P u) :
    t ∈ m.named ids ↔ t ∈ m.triangles ∧ P t := by
  rw [named, List.mem_filterMap, mem_triangles_iff]
  constructor
  · rintro ⟨id, hid, ht⟩
    obtain ⟨u, hu, hp⟩ := (hids id).1 hid
    obtain rfl : t = u := Option.some.inj (ht.symm.trans hu)
    exact ⟨⟨id, ht⟩, hp⟩
  · rintro ⟨⟨id, ht⟩, hp⟩
    exact ⟨id, (hids id).2 ⟨t, ht, hp⟩, ht⟩

theorem mem_named_trianglesAt (h : m.Coherent) {p : Vec3 K} :
    t ∈ m.named (m.trianglesAt p) ↔ t ∈ m.triangles ∧ t.hasCorner p.key = true :=
  mem_named_of_mem_iff fun _ => h.mem_trianglesAt

theorem mem_named_trianglesAlong (h : m.Coherent) {p q : Vec3 K} :
    t ∈ m.named (m.trianglesAlong p q) ↔
      t ∈ m.triangles ∧ t.hasCorner p.key = true ∧ t.hasCorner q.key = true :=
  mem_named_of_mem_iff fun _ => h.mem_trianglesAlong

/-- The triangles at a point, in some order. -/
theorem perm_named_trianglesAt (h : m.Coherent) (p : Vec3 K) :
    (m.named (m.trianglesAt p)).Perm (m.triangles.filter fun t => t.hasCorner p.key) := by
  have hids := (m.perm_of_mem_iff (h.nodup_trianglesAt p) fun _ => h.mem_trianglesAt).filterMap m.get?
  refine hids.trans (.of_eq ?_)
  rw [triangles, Arena.values, List.filter_map, List.filterMap_map]
  refine List.filterMap_eq_map_iff_forall_eq_some.2 fun e he => ?_
  exact Arena.mem_toList.1 (List.mem_of_mem_filter he)

theorem mem_otherCorners_trianglesAt (h : m.Coherent) {p : Vec3 K} {k : VertexKey K} :
    k ∈ otherCorners s (m.named (m.trianglesAt p)) ↔
      (∃ t ∈ m.triangles, t.hasCorner p.key = true ∧ t.hasCorner k = true) ∧
        s.hasEnd k = false := by
  simp only [mem_otherCorners, h.mem_named_trianglesAt, and_assoc]

theorem mem_otherCorners_trianglesAlong (h : m.Coherent) {k : VertexKey K} :
    k ∈ otherCorners s (m.named (m.trianglesAlong s.lo s.hi)) ↔
      (∃ t ∈ m.triangles, t.atBoth s = true ∧ t.hasCorner k = true) ∧ s.hasEnd k = false := by
  simp only [mem_otherCorners, h.mem_named_trianglesAlong, Triangle.atBoth, Bool.and_eq_true,
    and_assoc]

/-- Each vertex next to both ends belongs to a triangle at the edge. -/
theorem linksAgree_iff (h : m.Coherent) : m.linksAgree s = true ↔ ∀ k, s.hasEnd k = false →
    (∃ t ∈ m.triangles, t.hasCorner s.lo.key = true ∧ t.hasCorner k = true) →
    (∃ t ∈ m.triangles, t.hasCorner s.hi.key = true ∧ t.hasCorner k = true) →
    ∃ t ∈ m.triangles, t.atBoth s = true ∧ t.hasCorner k = true := by
  simp only [linksAgree, List.all_eq_true, Bool.or_eq_true, Bool.not_eq_true',
    List.contains_eq_mem, decide_eq_true_eq, decide_eq_false_iff_not,
    h.mem_otherCorners_trianglesAt, h.mem_otherCorners_trianglesAlong]
  constructor
  · intro hall k haway hlo hhi
    exact ((hall k ⟨hlo, haway⟩).resolve_left fun hnot => hnot ⟨hhi, haway⟩).1
  · intro hall k ⟨hlo, haway⟩
    refine or_iff_not_imp_left.2 fun hnot => ?_
    obtain ⟨hhi, -⟩ := not_not.1 hnot
    exact ⟨hall k haway hlo hhi, haway⟩

/-- The sides across from `p` of the triangles at `p` but not at `q`, in some order. -/
theorem perm_outerSides (h : m.Coherent) (p q : Vec3 K) :
    (m.outerSides p q).Perm (sidesAcross m.triangles p q) := by
  refine ((h.perm_named_trianglesAt p).filterMap _).trans (.of_eq ?_)
  rw [List.filterMap_filter, sidesAcross]
  refine List.filterMap_congr fun t _ => ?_
  have hcorner : t.hasCorner p.key = (t.placeOf p.key).isSome := rfl
  rw [hcorner]
  cases t.placeOf p.key <;> cases t.hasCorner q.key <;> rfl

theorem following_mem_outerSides (h : m.Coherent) (ht : t ∈ m.triangles) {p q : Vec3 K}
    {place : Place} (hplace : t.placeOf p.key = some place) (hq : t.hasCorner q.key = false) :
    t.following place ∈ m.outerSides p q :=
  (h.perm_outerSides p q).mem_iff.2 (List.mem_filterMap.2 ⟨t, ht, by simp [hq, hplace]⟩)

/-- **The test before a collapse in terms of the triangles**: vertices next to both ends belong to a
triangle at the edge, and the triangles at one end only lie over different edges and do not turn over. -/
theorem canCollapse_iff (h : m.Coherent) : m.canCollapse s = true ↔
    (∀ k, s.hasEnd k = false →
      (∃ t ∈ m.triangles, t.hasCorner s.lo.key = true ∧ t.hasCorner k = true) →
      (∃ t ∈ m.triangles, t.hasCorner s.hi.key = true ∧ t.hasCorner k = true) →
      ∃ t ∈ m.triangles, t.atBoth s = true ∧ t.hasCorner k = true) ∧
    ((sidesAcross m.triangles s.lo s.hi ++ sidesAcross m.triangles s.hi s.lo).map
      fun side => (Segment.between side.1 side.2).key).Nodup ∧
    ∀ side ∈ sidesAcross m.triangles s.lo s.hi ++ sidesAcross m.triangles s.hi s.lo,
      turnsOver s side = false := by
  have hperm := (h.perm_outerSides s.lo s.hi).append (h.perm_outerSides s.hi s.lo)
  rw [canCollapse, Bool.and_eq_true, Bool.and_eq_true, h.linksAgree_iff, decide_eq_true_eq,
    (hperm.map _).nodup_iff, and_assoc]
  refine and_congr_right fun _ => and_congr_right fun _ => ?_
  rw [Bool.not_eq_true', List.any_eq_false]
  exact forall_congr' fun side => by rw [hperm.mem_iff, Bool.not_eq_true]

end Coherent

end Isomesh.Mesh
