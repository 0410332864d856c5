import Mathlib
import Isomesh.Grouping
import Isomesh.Proofs.Binary64Order

/-!
# Grouping splits at medians

Grouping sorts triangles along the axis on which their centroids spread most, cuts the list in half, and
goes on with the halves. Sorting does more than is needed: it is enough that the triangle in the middle is
at its place, with none after it that belongs before it, and none the other way around. However that is
done, the triangles come out as they would from any median partition, and later steps, which take each
half along an axis of its own, do not undo it.

* `IsSelected`, `Selection`: ways to put one element at its place.
* `Selection.group`: grouping by some selection. `groupTriangles` does it by sorting.
* `IsWidest`: an axis on which centroids spread most.
* `SplitsAtMedian`: a list whose halves are on both sides of its median.
* `grouping_splits_at_medians`: the main result.
-/

set_option autoImplicit false

namespace Isomesh

/-! ## Selections -/

/-- Whether `ys` is a list `xs` in an order with the element of a given rank at its place. -/
structure IsSelected {α : Type} (le : α → α → Bool) (rank : Nat) (xs ys : List α) : Prop where
  perm : ys.Perm xs
  before : ∀ (h : rank < ys.length), ∀ x ∈ ys.take rank, le x ys[rank] = true
  after : ∀ (h : rank < ys.length), ∀ x ∈ ys.drop (rank + 1), le ys[rank] x = true

/-- The elements before the selected one are not greater than those from it on. -/
theorem IsSelected.le_of_mem {α : Type} {le : α → α → Bool} {rank : Nat} {xs ys : List α}
    (h : IsSelected le rank xs ys) (hrefl : ∀ a, le a a = true)
    (htrans : ∀ a b c, le a b = true → le b c = true → le a c = true) {x y : α} (hx : x ∈ ys.take rank)
    (hy : y ∈ ys.drop rank) : le x y = true := by
  have hrank : rank < ys.length := by
    have hpos := List.length_pos_of_mem hy
    rw [List.length_drop] at hpos
    omega
  refine htrans _ _ _ (h.before hrank x hx) ?_
  rw [List.drop_eq_getElem_cons hrank, List.mem_cons] at hy
  rcases hy with rfl | hy
  · exact hrefl _
  · exact h.after hrank y hy

/-- Sorting puts every element at its place. -/
theorem isSelected_mergeSort {α : Type} {le : α → α → Bool}
    (htrans : ∀ a b c, le a b = true → le b c = true → le a c = true)
    (htotal : ∀ a b, (le a b || le b a) = true) (rank : Nat) (xs : List α) :
    IsSelected le rank xs (xs.mergeSort le) := by
  have hsorted := List.pairwise_mergeSort htrans htotal xs
  have hcut (k : Nat) {x y : α} (hx : x ∈ (xs.mergeSort le).take k)
      (hy : y ∈ (xs.mergeSort le).drop k) : le x y = true := by
    rw [← List.take_append_drop k (xs.mergeSort le)] at hsorted
    exact (List.pairwise_append.1 hsorted).2.2 x hx y hy
  refine ⟨List.mergeSort_perm xs le, fun h x hx => hcut rank hx ?_, fun h x hx => hcut (rank + 1) ?_ hx⟩
  · rw [List.drop_eq_getElem_cons h]
    exact List.mem_cons_self
  · rw [List.take_succ_eq_append_getElem h]
    exact List.mem_append_right _ (List.mem_singleton_self _)

variable {K : Type} [Scalar K]

theorem centroidLE_refl (axis : Axis) (t : Triangle K) : centroidLE axis t t = true :=
  congrArg Ordering.isLE Std.ReflCmp.compare_self

theorem centroidLE_trans (axis : Axis) (s t u : Triangle K) (hst : centroidLE axis s t = true)
    (htu : centroidLE axis t u = true) : centroidLE axis s u = true :=
  Std.TransCmp.isLE_trans hst htu

theorem centroidLE_total (axis : Axis) (s t : Triangle K) :
    (centroidLE axis s t || centroidLE axis t s) = true := by
  have hswap : Scalar.totalCmp (s.centroid.get axis) (t.centroid.get axis) =
      (Scalar.totalCmp (t.centroid.get axis) (s.centroid.get axis)).swap := Std.OrientedCmp.eq_swap
  rw [centroidLE, centroidLE, hswap]
  cases Scalar.totalCmp (t.centroid.get axis) (s.centroid.get axis) <;> rfl

/-- A way to put the triangle of a given rank at its place along an axis. -/
structure Selection (K : Type) [Scalar K] where
  select : Axis → Nat → List (Triangle K) → List (Triangle K)
  isSelected : ∀ axis rank ts, rank < ts.length →
    IsSelected (centroidLE axis) rank ts (select axis rank ts)

/-! ## Spreads -/

/-- The coordinates of the centroids of some triangles along an axis. -/
def centroidsAlong (axis : Axis) (ts : List (Triangle K)) : Set K :=
  {c | ∃ t ∈ ts, t.centroid.get axis = c}

theorem centroidsAlong_perm {axis : Axis} {ts us : List (Triangle K)} (h : ts.Perm us) :
    centroidsAlong axis ts = centroidsAlong axis us := by
  ext c
  simp only [centroidsAlong, h.mem_iff]

/-- Whether centroids spread along an axis as far as along any: the smallest box around them is widest
there. -/
def IsWidest (axis : Axis) (ts : List (Triangle K)) : Prop :=
  ∃ box : Bounds K, (∀ a, box.Spans a (centroidsAlong a ts)) ∧
    ∀ a, (box.hi - box.lo).get a ≤ (box.hi - box.lo).get axis

theorem IsWidest.of_perm {axis : Axis} {ts us : List (Triangle K)} (h : IsWidest axis ts)
    (hperm : us.Perm ts) : IsWidest axis us := by
  obtain ⟨box, hspans, hwidest⟩ := h
  exact ⟨box, fun a => centroidsAlong_perm hperm ▸ hspans a, hwidest⟩

/-- Whether all centroids are ordinary points. -/
def HasCentroids (ts : List (Triangle K)) : Prop :=
  ∀ t ∈ ts, ∀ axis, Scalar.isFinite (t.centroid.get axis) = true

section Spread

variable [OrderedScalar K]

/-- The box around some points, one by one. -/
theorem Bounds.Spans.foldl {axis : Axis} (ps : List (Vec3 K)) {box : Bounds K} {s : Set K}
    (h : box.Spans axis s) (hdef : ∀ p ∈ ps, Scalar.Defined (p.get axis)) :
    (ps.foldl (fun box q => ⟨box.lo.lesser q, box.hi.greater q⟩) box).Spans axis
      (s ∪ {c | ∃ p ∈ ps, p.get axis = c}) := by
  induction ps generalizing box s with
  | nil => simpa using h
  | cons q ps ih =>
    rw [List.forall_mem_cons] at hdef
    have hjoin : (box.join ⟨q, q⟩).Spans axis (s ∪ {q.get axis}) := h.join (spans_singleton hdef.1)
    have hset : s ∪ {c | ∃ p ∈ q :: ps, p.get axis = c} =
        s ∪ {q.get axis} ∪ {c | ∃ p ∈ ps, p.get axis = c} := by
      ext c
      simp only [Set.mem_union, Set.mem_ofPred_eq, Set.mem_singleton_iff, List.mem_cons,
        exists_eq_or_imp, eq_comm (b := c), or_assoc]
    rw [hset]
    exact ih hjoin hdef.2

theorem spans_boundsOf {axis : Axis} {ts : List (Triangle K)} (hne : ts ≠ [])
    (hdef : ∀ t ∈ ts, Scalar.Defined (t.centroid.get axis)) :
    (boundsOf (ts.map Triangle.centroid)).Spans axis (centroidsAlong axis ts) := by
  cases ts with
  | nil => exact absurd rfl hne
  | cons t ts =>
    rw [List.forall_mem_cons] at hdef
    have hfold := (Bounds.spans_singleton hdef.1).foldl (ts.map Triangle.centroid)
      (List.forall_mem_map.2 hdef.2)
    have hset : centroidsAlong axis (t :: ts) =
        {t.centroid.get axis} ∪ {c | ∃ p ∈ ts.map Triangle.centroid, p.get axis = c} := by
      ext c
      simp only [centroidsAlong, Set.mem_union, Set.mem_ofPred_eq, Set.mem_singleton_iff, List.mem_cons,
        exists_eq_or_imp, eq_comm (b := c), List.mem_map, exists_exists_and_eq_and]
    rw [hset]
    exact hfold

/-- **Grouping takes an axis on which the centroids spread most.** -/
theorem isWidest_spreadAxis {ts : List (Triangle K)} (hne : ts ≠ []) (h : HasCentroids ts) :
    IsWidest (spreadAxis ts) ts := by
  have hspans (a : Axis) : (boundsOf (ts.map Triangle.centroid)).Spans a (centroidsAlong a ts) :=
    spans_boundsOf hne fun t ht => OrderedScalar.defined_of_isFinite (h t ht a)
  refine ⟨boundsOf (ts.map Triangle.centroid), hspans, fun a => Vec3.get_le_get_widestAxis ?_ a⟩
  intro a
  obtain ⟨s, hs, hlo⟩ := (hspans a).isLeast.1
  obtain ⟨t, ht, hhi⟩ := (hspans a).isGreatest.1
  rw [Vec3.get_sub, ← hlo, ← hhi]
  exact OrderedScalar.defined_sub (h t ht a) (h s hs a)

end Spread

/-! ## Grouping by selections -/

namespace Selection

/-- Sorting puts every triangle at its place. -/
def sorting : Selection K where
  select axis _ ts := ts.mergeSort (centroidLE axis)
  isSelected axis rank ts _ :=
    isSelected_mergeSort (centroidLE_trans axis) (centroidLE_total axis) rank ts

variable (sel : Selection K)

theorem length_select (axis : Axis) {rank : Nat} {ts : List (Triangle K)} (h : rank < ts.length) :
    (sel.select axis rank ts).length = ts.length :=
  (sel.isSelected axis rank ts h).perm.length_eq

/-- Puts the median along the axis of the largest spread at its place, and then goes on with each half by
itself. -/
def group (ts : List (Triangle K)) : List (Triangle K) :=
  if ts.length ≤ 2 then ts
  else
    let half := ts.length / 2
    let selected := sel.select (spreadAxis ts) half ts
    group (selected.take half) ++ group (selected.drop half)
termination_by ts.length
decreasing_by
  all_goals
    have hlength : (sel.select (spreadAxis ts) (ts.length / 2) ts).length = ts.length :=
      sel.length_select (spreadAxis ts) (by omega)
    simp only [List.length_take, List.length_drop]
    omega

/-- Grouping keeps every triangle, however medians are selected. -/
theorem group_perm (ts : List (Triangle K)) : (sel.group ts).Perm ts := by
  fun_induction sel.group ts with
  | case1 => exact .refl _
  | case2 ts hlong half selected left right =>
    refine (left.append right).trans ?_
    rw [List.take_append_drop]
    exact (sel.isSelected _ half ts (by omega)).perm

end Selection

/-- Grouping by sorting. -/
theorem groupTriangles_eq (ts : List (Triangle K)) : groupTriangles ts = Selection.sorting.group ts := by
  fun_induction groupTriangles ts with
  | case1 ts hshort => rw [Selection.group, if_pos hshort]
  | case2 ts hlong sorted half left right =>
    rw [Selection.group, if_neg hlong, left, right]
    rfl

/-! ## Halves -/

/-- The lists that halving passes through while more than two elements are left, the list itself first. -/
def halvings {α : Type} (xs : List α) : List (List α) :=
  if xs.length ≤ 2 then []
  else xs :: (halvings (xs.take (xs.length / 2)) ++ halvings (xs.drop (xs.length / 2)))
termination_by xs.length
decreasing_by
  all_goals
    simp only [List.length_take, List.length_drop]
    omega

/-- Whether the halves of a list are on both sides of its median, along an axis on which the centroids
spread most. -/
def SplitsAtMedian (ts : List (Triangle K)) : Prop :=
  ∃ axis, IsWidest axis ts ∧ ∀ s ∈ ts.take (ts.length / 2), ∀ t ∈ ts.drop (ts.length / 2),
    centroidLE axis s t = true

/-- The halvings of two lists one after the other, of which the first is half of both. -/
theorem mem_halvings_append {α : Type} {xs ys part : List α}
    (hhalf : xs.length = (xs ++ ys).length / 2) (h : part ∈ halvings (xs ++ ys)) :
    part = xs ++ ys ∨ part ∈ halvings xs ∨ part ∈ halvings ys := by
  rw [halvings] at h
  split_ifs at h with hshort
  · exact absurd h List.not_mem_nil
  · rwa [← hhalf, List.take_left, List.drop_left, List.mem_cons, List.mem_append] at h

/-- **A grouped list splits at medians, and so do its halves,** down to pairs. Reordering the halves later
on keeps each triangle in its half. -/
theorem Selection.splitsAtMedian_group [OrderedScalar K] (sel : Selection K) {ts : List (Triangle K)}
    (h : HasCentroids ts) : ∀ part ∈ halvings (sel.group ts), SplitsAtMedian part := by
  fun_induction sel.group ts with
  | case1 ts hshort =>
    rw [halvings, if_pos hshort]
    exact List.forall_mem_nil _
  | case2 ts hlong half selected left right =>
    have hselected : IsSelected (centroidLE (spreadAxis ts)) half ts selected :=
      sel.isSelected _ half ts (by omega)
    have hleft := sel.group_perm (selected.take half)
    have hright := sel.group_perm (selected.drop half)
    have hperm : (sel.group (selected.take half) ++ sel.group (selected.drop half)).Perm ts :=
      (hleft.append hright).trans (by rw [List.take_append_drop]; exact hselected.perm)
    have hhalf : (sel.group (selected.take half)).length = half := by
      rw [hleft.length_eq, List.length_take, hselected.perm.length_eq]
      omega
    have hlength : (sel.group (selected.take half)).length =
        (sel.group (selected.take half) ++ sel.group (selected.drop half)).length / 2 := by
      rw [hhalf, hperm.length_eq]
    intro part hpart
    rcases mem_halvings_append hlength hpart with rfl | hpart | hpart
    · have hne : ts ≠ [] := fun hnil => hlong (by simp [hnil])
      refine ⟨spreadAxis ts, (isWidest_spreadAxis hne h).of_perm hperm, fun s hs t ht => ?_⟩
      rw [← hlength, List.take_left, hleft.mem_iff] at hs
      rw [← hlength, List.drop_left, hright.mem_iff] at ht
      exact hselected.le_of_mem (centroidLE_refl _) (centroidLE_trans _) hs ht
    · exact left (fun t ht => h t (hselected.perm.mem_iff.1 (List.mem_of_mem_take ht))) part hpart
    · exact right (fun t ht => h t (hselected.perm.mem_iff.1 (List.mem_of_mem_drop ht))) part hpart

/-- **Grouping is a recursive median partition,** however medians are selected, and grouping by sorting is
one of the ways. It keeps every triangle, and where all centroids are ordinary points, the list and all its
halves split at medians along an axis of the largest spread. -/
theorem grouping_splits_at_medians [OrderedScalar K] (ts : List (Triangle K)) :
    groupTriangles ts = Selection.sorting.group ts ∧
      ∀ sel : Selection K, (sel.group ts).Perm ts ∧
        (HasCentroids ts → ∀ part ∈ halvings (sel.group ts), SplitsAtMedian part) :=
  ⟨groupTriangles_eq ts, fun sel => ⟨sel.group_perm ts, fun h => sel.splitsAtMedian_group h⟩⟩

/-- Seven tiles of a slanted strip two tiles wide, in no order. -/
def tiles : List (Triangle Float) :=
  [tile 3 0, tile 0 1, tile 1 0, tile 0 0, tile 2 1, tile 3 1, tile 1 1]
where
  tile (x y : Float) : Triangle Float :=
    ⟨⟨x, y, 0.1 * x⟩, ⟨x + 1, y, 0.1 * x + 0.1⟩, ⟨x, y + 1, 0.1 * x⟩⟩

theorem tiles_split_at_medians : HasCentroids tiles ∧
    groupTriangles tiles = Selection.sorting.group tiles ∧
    (groupTriangles tiles).Perm tiles ∧ (groupTriangles tiles).length = 7 ∧
    ∀ part ∈ halvings (groupTriangles tiles), SplitsAtMedian part := by
  have hcentroids : ∀ t ∈ tiles, ∀ axis ∈ Axis.all, Scalar.isFinite (t.centroid.get axis) = true := by
    decide +kernel
  have h : HasCentroids tiles := fun t ht axis => hcentroids t ht axis axis.mem_all
  obtain ⟨heq, hsplit⟩ := grouping_splits_at_medians tiles
  obtain ⟨hperm, hparts⟩ := hsplit .sorting
  rw [heq]
  exact ⟨h, rfl, hperm, hperm.length_eq, hparts h⟩

end Isomesh
