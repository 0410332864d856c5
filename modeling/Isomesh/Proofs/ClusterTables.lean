import Isomesh.Weld
import Mathlib.Data.List.Basic
import Mathlib.Data.List.Lattice
import Mathlib.Data.List.Range
import Mathlib.Data.List.Sort

/-!
# The table of cells and the clusters

A scan keeps its clusters by number, and a table that names the cluster of each cell. When clusters join,
the cells of the younger ones are made over to the oldest, and the places of the younger ones are left
empty for good. The table then still names, for each cell, the one cluster that has it. So the numbers that
it has for the cells of a vertex are those of the clusters with one of these cells, and what entering the
vertex does can be said of the list of clusters alone.

* `Clustering.Indexed`: the invariant, that the table and the clusters agree.
* `Enters`: what entering a vertex does to a list of clusters.
* `Clustering.Indexed.enters`: entering a vertex in the table does that.
* `Clustering.Indexed.enter`: and it keeps the invariant.
-/

set_option autoImplicit false

namespace Isomesh

/-! ## Tables and lists of places -/

/-- A key that is inserted many times has the last value. -/
theorem getElem?_foldl_insert {κ α : Type} [Ord κ] [Std.TransOrd κ] [Std.LawfulEqOrd κ] [BEq κ]
    [LawfulBEq κ] (a : α) (ks : List κ) (table : Std.TreeMap κ α) (k : κ) :
    (ks.foldl (fun table l => table.insert l a) table)[k]? = if k ∈ ks then some a else table[k]? := by
  induction ks generalizing table with
  | nil => simp
  | cons l ks ih =>
    rw [List.foldl_cons, ih, Std.TreeMap.getElem?_insert]
    by_cases hks : k ∈ ks
    · simp [hks]
    · by_cases hlk : l = k
      · simp [hlk]
      · have hother : compare l k ≠ .eq := fun h => hlk (Std.LawfulEqCmp.compare_eq_iff_eq.1 h)
        simp [hks, hother, Ne.symm hlk]

section Places

variable {α : Type}

/-- Emptying some places leaves the others as they are. -/
theorem getElem?_foldl_empty (is : List Nat) (places : Array (Option α)) (j : Nat) :
    (is.foldl (fun places i => places.setIfInBounds i none) places)[j]? =
      if j ∈ is then places[j]?.map fun _ => none else places[j]? := by
  induction is generalizing places with
  | nil => simp
  | cons i is ih =>
    rw [List.foldl_cons, ih, Array.getElem?_setIfInBounds]
    by_cases hij : i = j
    · subst hij
      by_cases hi : i < places.size <;> simp [hi]
    · simp [hij, Ne.symm hij]

/-- The members of a list, one by one by their numbers. -/
theorem filterMap_range_getElem? {β : Type} (f : α → Option β) (xs : List α) :
    ((List.range xs.length).filterMap fun i => xs[i]?.bind f) = xs.filterMap f := by
  induction xs with
  | nil => rfl
  | cons x xs ih =>
    rw [List.length_cons, List.range_succ_eq_map, List.filterMap_cons, List.filterMap_map,
      List.filterMap_cons, ← ih]
    rfl

/-- What is in the places with a property, in order. -/
theorem filterMap_filter_range (p : α → Bool) (xs : List (Option α)) :
    ((List.range xs.length).filter fun i => xs[i]?.join.any p).filterMap (fun i => xs[i]?.join) =
      (xs.filterMap id).filter p := by
  have hplace (i : Nat) : (if xs[i]?.join.any p then xs[i]?.join else none) =
      xs[i]?.bind fun x => x.filter p := by
    rcases xs[i]? with - | - | a
    · rfl
    · rfl
    · cases hp : p a <;> simp [Option.filter, hp]
  rw [List.filterMap_filter, List.filter_filterMap]
  simp only [hplace]
  exact filterMap_range_getElem? (fun x => x.filter p) xs

/-- Emptying all places without a property. -/
theorem filterMap_map_filter (p : α → Bool) (xs : List (Option α)) :
    (xs.map fun x => x.filter p).filterMap id = (xs.filterMap id).filter p := by
  rw [List.filterMap_map, List.filter_filterMap]
  rfl

end Places

variable {K : Type} [Scalar K]

/-! ## Lists of clusters -/

namespace Cluster

/-- Whether the cluster has one of some cells. -/
def meets (c : Cluster K) (cells : List WeldCell) : Bool := cells.any fun cell => c.cells.contains cell

theorem meets_iff {c : Cluster K} {cells : List WeldCell} :
    c.meets cells = true ↔ ∃ cell ∈ cells, cell ∈ c.cells := by
  simp only [meets, List.any_eq_true, List.contains_iff_mem]

theorem mem_members_absorb {c : Cluster K} {v : Vec3 K} {cells : List WeldCell}
    {near : List (Cluster K)} {k : VertexKey K} :
    k ∈ (c.absorb v cells near).members ↔ k ∈ c.members ∨ k = v.key ∨ ∃ d ∈ near, k ∈ d.members := by
  simp only [absorb, List.mem_append, List.mem_cons, List.mem_flatMap]

theorem mem_cells_absorb {c : Cluster K} {v : Vec3 K} {cells : List WeldCell}
    {near : List (Cluster K)} {cell : WeldCell} :
    cell ∈ (c.absorb v cells near).cells ↔
      cell ∈ c.cells ∨ cell ∈ cells ∨ ∃ d ∈ near, cell ∈ d.cells := by
  simp only [absorb, List.mem_append, List.mem_flatMap, or_assoc]

theorem disjoint_of_not_meets {c : Cluster K} {cells : List WeldCell} (h : c.meets cells = false) :
    c.cells.Disjoint cells := by
  intro cell hc hcell
  rw [meets_iff.2 ⟨cell, hcell, hc⟩] at h
  cases h

/-- What entering a vertex does to a list of clusters. -/
inductive Enters (v : Vec3 K) (cells : List WeldCell) (clusters : List (Cluster K)) :
    List (Cluster K) → Prop where
  | starts (h : ∀ c ∈ clusters, c.meets cells = false) :
      Enters v cells clusters (clusters ++ [⟨v, [v.key], cells⟩])
  | joins (before : List (Cluster K)) (c : Cluster K) (rest : List (Cluster K))
      (heq : clusters = before ++ c :: rest) (hbefore : ∀ d ∈ before, d.meets cells = false)
      (hmeets : c.meets cells = true) :
      Enters v cells clusters (before ++ c.absorb v cells (rest.filter (·.meets cells)) ::
        rest.filter fun d => !d.meets cells)

end Cluster

/-! ## Entering a vertex -/

namespace Clustering

variable {s : Clustering K} {c d : Cluster K} {v : Vec3 K} {cells : List WeldCell} {cell : WeldCell}
  {i target : Nat} {others : List Nat}

/-- Whether the table names for each cell the cluster that has it. -/
def Indexed (s : Clustering K) : Prop :=
  ∀ (cell : WeldCell) (i : Nat),
    s.owner[cell]? = some i ↔ ∃ c : Cluster K, s.places[i]? = some (some c) ∧ cell ∈ c.cells

theorem indexed_empty : (empty : Clustering K).Indexed := by
  intro cell i
  simp [empty]

theorem mem_clusters : c ∈ s.clusters ↔ ∃ i : Nat, s.places[i]? = some (some c) := by
  rw [clusters, List.mem_filterMap]
  simp only [id_eq, exists_eq_right, List.mem_iff_getElem?, Array.getElem?_toList]

theorem getElem?_assign (owner : Std.TreeMap WeldCell Nat) (cells : List WeldCell) (i : Nat)
    (cell : WeldCell) : (assign owner cells i)[cell]? = if cell ∈ cells then some i else owner[cell]? :=
  getElem?_foldl_insert i cells owner cell

theorem mem_touched : i ∈ s.touched cells ↔ ∃ cell ∈ cells, s.owner[cell]? = some i := by
  rw [touched, Std.TreeSet.mem_toList, Std.TreeSet.mem_ofList, List.contains_iff_mem,
    List.mem_filterMap]

theorem pairwise_touched (s : Clustering K) (cells : List WeldCell) :
    (s.touched cells).Pairwise (· < ·) :=
  Std.TreeSet.ordered_toList.imp Std.compare_eq_lt.1

/-- **The numbers that the table has for some cells** are those of the clusters with one of them. -/
theorem Indexed.mem_touched_iff (h : s.Indexed) :
    i ∈ s.touched cells ↔ ∃ c, s.places[i]? = some (some c) ∧ c.meets cells = true := by
  simp only [mem_touched, h _ i, Cluster.meets_iff]
  constructor
  · rintro ⟨cell, hcell, c, hc, hmem⟩
    exact ⟨c, hc, cell, hcell, hmem⟩
  · rintro ⟨c, hc, cell, hcell, hmem⟩
    exact ⟨cell, hcell, c, hc, hmem⟩

theorem Indexed.touched_eq (h : s.Indexed) (cells : List WeldCell) :
    s.touched cells = (List.range s.places.toList.length).filter fun i =>
      s.places.toList[i]?.join.any (·.meets cells) := by
  refine (s.pairwise_touched cells).eq_of_mem_iff (List.pairwise_lt_range.filter _) fun i => ?_
  rw [h.mem_touched_iff, List.mem_filter, List.mem_range, Array.getElem?_toList]
  constructor
  · rintro ⟨c, hc, hmeets⟩
    exact ⟨(Array.getElem?_eq_some_iff.1 hc).1, by simp [hc, hmeets]⟩
  · rintro ⟨-, hany⟩
    rcases hc : s.places[i]? with - | - | c
    · simp [hc] at hany
    · simp [hc] at hany
    · exact ⟨c, rfl, by simpa [hc] using hany⟩

/-- The clusters with one of some cells, the oldest first. -/
theorem Indexed.filterMap_touched (h : s.Indexed) (cells : List WeldCell) :
    (s.touched cells).filterMap (fun i => s.places[i]?.join) = s.clusters.filter (·.meets cells) := by
  rw [h.touched_eq, clusters, ← filterMap_filter_range (·.meets cells) s.places.toList]
  simp only [Array.getElem?_toList]

/-- An empty answer of the table. -/
theorem Indexed.meets_eq_false (h : s.Indexed) (hnone : s.touched cells = []) (hc : c ∈ s.clusters) :
    c.meets cells = false := by
  obtain ⟨i, hi⟩ := mem_clusters.1 hc
  by_contra hmeets
  rw [Bool.not_eq_false] at hmeets
  have hmem := h.mem_touched_iff.2 ⟨c, hi, hmeets⟩
  rw [hnone] at hmem
  cases hmem

/-- Only one cluster has a cell. -/
theorem Indexed.eq_of_mem (h : s.Indexed) {j : Nat} (hc : s.places[i]? = some (some c))
    (hd : s.places[j]? = some (some d)) (hcell : cell ∈ c.cells) (hcell' : cell ∈ d.cells) : i = j :=
  Option.some.inj (((h cell i).2 ⟨c, hc, hcell⟩).symm.trans ((h cell j).2 ⟨d, hd, hcell'⟩))

/-- The table agrees with the clusters again when one cluster is given all its cells, and the clusters that
have some of these have left with all of theirs. -/
theorem Indexed.assign (h : s.Indexed) {places : Array (Option (Cluster K))}
    (htarget : places[target]? = some (some c))
    (hkept : ∀ (i : Nat) (d : Cluster K), i ≠ target → (places[i]? = some (some d) ↔
      s.places[i]? = some (some d) ∧ d.cells.Disjoint c.cells))
    (hleft : ∀ (i : Nat) (d : Cluster K), s.places[i]? = some (some d) →
      d.cells ⊆ c.cells ∨ i ≠ target ∧ d.cells.Disjoint c.cells) :
    Indexed ⟨places, Clustering.assign s.owner c.cells target⟩ := by
  intro cell i
  rw [getElem?_assign]
  by_cases hi : i = target
  · subst hi
    simp only [htarget, Option.some.injEq, exists_eq_left']
    by_cases hcell : cell ∈ c.cells
    · simp [hcell]
    · simp only [hcell, if_false, iff_false]
      intro howner
      obtain ⟨d, hd, hmem⟩ := (h cell i).1 howner
      exact hcell (((hleft i d hd).resolve_right fun hne => hne.1 rfl) hmem)
  · simp only [hkept i _ hi]
    by_cases hcell : cell ∈ c.cells
    · simp only [hcell, if_true, Option.some.injEq, Ne.symm hi, false_iff]
      rintro ⟨d, ⟨-, hdisjoint⟩, hmem⟩
      exact hdisjoint hmem hcell
    · rw [if_neg hcell, h cell i]
      refine exists_congr fun d => ⟨fun ⟨hd, hmem⟩ => ⟨⟨hd, ?_⟩, hmem⟩, fun ⟨⟨hd, _⟩, hmem⟩ => ⟨hd, hmem⟩⟩
      exact ((hleft i d hd).resolve_left fun hsub => hcell (hsub hmem)).2

/-! ### A vertex that starts a cluster -/

theorem enter_of_none (hnone : s.touched cells = []) (v : Vec3 K) :
    s.enter v cells =
      ⟨s.places.push (some ⟨v, [v.key], cells⟩), Clustering.assign s.owner cells s.places.size⟩ := by
  rw [enter, hnone]

theorem Indexed.enters_of_none (h : s.Indexed) (hnone : s.touched cells = []) (v : Vec3 K) :
    Cluster.Enters v cells s.clusters (s.enter v cells).clusters := by
  have hclusters : (s.enter v cells).clusters = s.clusters ++ [⟨v, [v.key], cells⟩] := by
    simp [enter_of_none hnone, clusters]
  rw [hclusters]
  exact .starts fun c hc => h.meets_eq_false hnone hc

theorem Indexed.enter_of_none (h : s.Indexed) (hnone : s.touched cells = []) (v : Vec3 K) :
    (s.enter v cells).Indexed := by
  have hdisjoint {i : Nat} {d : Cluster K} (hd : s.places[i]? = some (some d)) :
      d.cells.Disjoint cells :=
    Cluster.disjoint_of_not_meets (h.meets_eq_false hnone (mem_clusters.2 ⟨i, hd⟩))
  rw [Clustering.enter_of_none hnone]
  refine h.assign (c := ⟨v, [v.key], cells⟩) Array.getElem?_push_size (fun i d hi => ?_) fun i d hd => ?_
  · rw [Array.getElem?_push, if_neg hi]
    exact ⟨fun hd => ⟨hd, hdisjoint hd⟩, And.left⟩
  · exact .inr ⟨(Array.getElem?_eq_some_iff.1 hd).1.ne, hdisjoint hd⟩

/-! ### A vertex that joins clusters -/

/-- The places after the clusters of some numbers have joined another one. -/
def joined (s : Clustering K) (c : Cluster K) (target : Nat) (others : List Nat) :
    Array (Option (Cluster K)) :=
  (others.foldl (fun places i => places.setIfInBounds i none) s.places).setIfInBounds target (some c)

theorem getElem?_joined_self (c : Cluster K) (others : List Nat) (htarget : target < s.places.size) :
    (s.joined c target others)[target]? = some (some c) := by
  have hsize : (others.foldl (fun places i => places.setIfInBounds i none) s.places).size =
      s.places.size :=
    List.foldlRecOn (motive := fun places : Array (Option (Cluster K)) => places.size = s.places.size)
      others _ rfl fun places h i _ => Array.size_setIfInBounds.trans h
  rw [joined, Array.getElem?_setIfInBounds, if_pos rfl, if_pos (hsize ▸ htarget)]

theorem getElem?_joined_of_ne (c : Cluster K) (others : List Nat) (hi : i ≠ target) :
    (s.joined c target others)[i]? =
      if i ∈ others then s.places[i]?.map fun _ => none else s.places[i]? := by
  rw [joined, Array.getElem?_setIfInBounds, if_neg (Ne.symm hi), getElem?_foldl_empty]

/-- What entering a vertex does when the table has numbers for its cells. -/
structure Joins (s : Clustering K) (cells : List WeldCell) (target : Nat) (others : List Nat)
    (oldest : Cluster K) : Prop where
  place : s.places[target]? = some (some oldest)
  meets : oldest.meets cells = true
  /-- The other clusters with one of the cells are younger. -/
  others_iff : ∀ i, i ∈ others ↔
    target < i ∧ ∃ c, s.places[i]? = some (some c) ∧ c.meets cells = true
  /-- No older cluster has one of the cells. -/
  older : ∀ (i : Nat) (c : Cluster K), i < target → s.places[i]? = some (some c) → c.meets cells = false

theorem Indexed.joins (h : s.Indexed) (hsome : s.touched cells = target :: others) :
    ∃ oldest, s.Joins cells target others oldest := by
  have hmem (i : Nat) : i ∈ target :: others ↔ ∃ c, s.places[i]? = some (some c) ∧ c.meets cells = true :=
    hsome ▸ h.mem_touched_iff
  have hordered : (target :: others).Pairwise (· < ·) := hsome ▸ s.pairwise_touched cells
  obtain ⟨hfirst, -⟩ := List.pairwise_cons.1 hordered
  obtain ⟨oldest, hplace, hmeets⟩ := (hmem target).1 List.mem_cons_self
  refine ⟨oldest, hplace, hmeets, fun i => ⟨fun hi => ?_, fun ⟨hlt, hc⟩ => ?_⟩, fun i c hlt hc => ?_⟩
  · exact ⟨hfirst i hi, (hmem i).1 (List.mem_cons_of_mem target hi)⟩
  · exact ((hmem i).2 hc |> List.mem_cons.1).resolve_left hlt.ne'
  · by_contra hmeets
    rw [Bool.not_eq_false] at hmeets
    rcases List.mem_cons.1 ((hmem i).2 ⟨c, hc, hmeets⟩) with rfl | hi
    · exact hlt.false
    · exact (hfirst i hi).asymm hlt

namespace Joins

variable {oldest : Cluster K}

/-- The clusters that join are taken in the order of their age. -/
theorem near_eq (hj : s.Joins cells target others oldest) (h : s.Indexed)
    (hsome : s.touched cells = target :: others) :
    s.clusters.filter (·.meets cells) =
      oldest :: others.filterMap fun i => s.places[i]?.join := by
  rw [← h.filterMap_touched, hsome, List.filterMap_cons]
  simp [hj.place]

theorem enter_eq (hj : s.Joins cells target others oldest) (h : s.Indexed)
    (hsome : s.touched cells = target :: others) (v : Vec3 K) :
    let c := oldest.absorb v cells (s.clusters.filter (·.meets cells)).tail
    s.enter v cells =
      ⟨s.joined c target others, Clustering.assign s.owner c.cells target⟩ := by
  have hkept : target ∉ others := fun hmem => (((hj.others_iff target).1 hmem).1).false
  rw [hj.near_eq h hsome, enter, hsome]
  simp only [getElem?_foldl_empty, if_neg hkept, hj.place, Option.join_some, List.tail_cons]
  rfl

/-- The list of clusters, split at the one that takes in the others. -/
theorem clusters_eq (hj : s.Joins cells target others oldest) :
    s.clusters = (s.places.toList.take target).filterMap id ++
      oldest :: (s.places.toList.drop (target + 1)).filterMap id := by
  obtain ⟨hlt, hget⟩ := Array.getElem?_eq_some_iff.1 hj.place
  have hsplit : s.places.toList = s.places.toList.take target ++
      some oldest :: s.places.toList.drop (target + 1) := by
    rw [← hget, ← Array.getElem_toList, List.getElem_cons_drop, List.take_append_drop]
  conv_lhs => rw [clusters, hsplit]
  simp

/-- Places after the one that takes in the others lose the clusters with one of the cells. -/
theorem getElem?_joined_of_gt (hj : s.Joins cells target others oldest) (c : Cluster K)
    (hi : target < i) : (s.joined c target others)[i]? =
      s.places[i]?.map fun x => x.filter fun d => !d.meets cells := by
  rw [getElem?_joined_of_ne c others hi.ne']
  rcases hplace : s.places[i]? with - | - | d
  · simp
  · simp
  · cases hmeets : d.meets cells with
    | true =>
      rw [if_pos ((hj.others_iff i).2 ⟨hi, d, hplace, hmeets⟩)]
      simp [Option.filter, hmeets]
    | false =>
      have hnot : i ∉ others := fun hmem => by
        obtain ⟨-, e, he, hemeets⟩ := (hj.others_iff i).1 hmem
        obtain rfl : d = e := by simpa [hplace] using he
        rw [hmeets] at hemeets
        cases hemeets
      rw [if_neg hnot]
      simp [Option.filter, hmeets]

theorem joined_toList (hj : s.Joins cells target others oldest) (c : Cluster K) :
    (s.joined c target others).toList = s.places.toList.take target ++
      some c :: (s.places.toList.drop (target + 1)).map fun x => x.filter fun d => !d.meets cells := by
  have hlt : target < s.places.size := (Array.getElem?_eq_some_iff.1 hj.place).1
  have htake : (s.places.toList.take target).length = target := by
    rw [List.length_take, Array.length_toList, Nat.min_eq_left hlt.le]
  refine List.ext_getElem? fun i => ?_
  rw [Array.getElem?_toList]
  rcases Nat.lt_trichotomy i target with hi | rfl | hi
  · have hnot : i ∉ others := fun hmem => hi.asymm ((hj.others_iff i).1 hmem).1
    rw [getElem?_joined_of_ne c others hi.ne, if_neg hnot, List.getElem?_append_left (htake.symm ▸ hi),
      List.getElem?_take_of_lt hi, Array.getElem?_toList]
  · rw [getElem?_joined_self c others hlt, List.getElem?_append_right htake.le, htake, Nat.sub_self]
    rfl
  · obtain ⟨k, rfl⟩ := Nat.exists_eq_add_of_lt hi
    rw [hj.getElem?_joined_of_gt c hi, List.getElem?_append_right (htake.symm ▸ hi.le), htake,
      show target + k + 1 - target = k + 1 by omega, List.getElem?_cons_succ, List.getElem?_map,
      List.getElem?_drop, Array.getElem?_toList, show target + 1 + k = target + k + 1 by omega]

/-- **Entering a vertex joins the clusters with one of its cells**, under the oldest. -/
theorem enters (hj : s.Joins cells target others oldest) (h : s.Indexed)
    (hsome : s.touched cells = target :: others) (v : Vec3 K) :
    Cluster.Enters v cells s.clusters (s.enter v cells).clusters := by
  have hbefore : ∀ d ∈ (s.places.toList.take target).filterMap id, d.meets cells = false := by
    intro d hd
    obtain ⟨x, hx, rfl⟩ := List.mem_filterMap.1 hd
    obtain ⟨i, hi⟩ := List.mem_iff_getElem?.1 hx
    have hlt : i < target := by
      have := (List.getElem?_eq_some_iff.1 hi).1
      rw [List.length_take] at this
      omega
    rw [List.getElem?_take_of_lt hlt, Array.getElem?_toList] at hi
    exact hj.older i d hlt hi
  have hnear : s.clusters.filter (·.meets cells) =
      oldest :: ((s.places.toList.drop (target + 1)).filterMap id).filter (·.meets cells) := by
    have hnone : ((s.places.toList.take target).filterMap id).filter (·.meets cells) = [] :=
      List.filter_eq_nil_iff.2 fun d hd => by simp [hbefore d hd]
    rw [hj.clusters_eq, List.filter_append, hnone, List.nil_append]
    exact List.filter_cons_of_pos hj.meets
  have hclusters := congrArg Clustering.clusters (hj.enter_eq h hsome v)
  rw [hnear, List.tail_cons] at hclusters
  rw [hclusters, clusters, clusters, hj.joined_toList, List.filterMap_append, List.filterMap_cons,
    filterMap_map_filter]
  exact .joins _ oldest _ hj.clusters_eq hbefore hj.meets

/-- The cells of the cluster that has taken in the others. -/
theorem mem_cells_absorb (hj : s.Joins cells target others oldest) (h : s.Indexed)
    (hsome : s.touched cells = target :: others) (v : Vec3 K) {cell : WeldCell} :
    cell ∈ (oldest.absorb v cells (s.clusters.filter (·.meets cells)).tail).cells ↔
      cell ∈ cells ∨ ∃ c ∈ s.clusters, c.meets cells = true ∧ cell ∈ c.cells := by
  have hmem (c : Cluster K) : c ∈ s.clusters ∧ c.meets cells = true ↔
      c = oldest ∨ c ∈ (s.clusters.filter (·.meets cells)).tail := by
    rw [← List.mem_filter (p := fun c : Cluster K => c.meets cells), ← List.mem_cons, hj.near_eq h hsome,
      List.tail_cons]
  rw [Cluster.mem_cells_absorb]
  simp only [← and_assoc, hmem, or_and_right, exists_or, exists_eq_left]
  exact or_left_comm

end Joins

/-- **The table stays in agreement with the clusters** when some join. -/
theorem Indexed.enter_of_some (h : s.Indexed) (hsome : s.touched cells = target :: others) (v : Vec3 K) :
    (s.enter v cells).Indexed := by
  obtain ⟨oldest, hj⟩ := h.joins hsome
  rw [hj.enter_eq h hsome]
  generalize hc : oldest.absorb v cells (s.clusters.filter (·.meets cells)).tail = c
  have hcells {cell : WeldCell} : cell ∈ c.cells ↔
      cell ∈ cells ∨ ∃ c ∈ s.clusters, c.meets cells = true ∧ cell ∈ c.cells :=
    hc ▸ hj.mem_cells_absorb h hsome v
  -- a cluster with one of the cells leaves with all of its own, and one without has none of theirs
  have hsub {i : Nat} {d : Cluster K} (hd : s.places[i]? = some (some d))
      (hmeets : d.meets cells = true) : d.cells ⊆ c.cells := fun cell hcell =>
    hcells.2 (.inr ⟨d, mem_clusters.2 ⟨i, hd⟩, hmeets, hcell⟩)
  have hdisjoint {i : Nat} {d : Cluster K} (hd : s.places[i]? = some (some d))
      (hmeets : d.meets cells = false) : d.cells.Disjoint c.cells := by
    intro cell hcell hmem
    rcases hcells.1 hmem with hmem | ⟨e, he, hemeets, hmem⟩
    · exact Cluster.disjoint_of_not_meets hmeets hcell hmem
    · obtain ⟨j, he⟩ := mem_clusters.1 he
      rw [h.eq_of_mem hd he hcell hmem, he] at hd
      cases hd
      exact Bool.noConfusion (hmeets.symm.trans hemeets)
  refine h.assign (getElem?_joined_self c others (Array.getElem?_eq_some_iff.1 hj.place).1)
    (fun i d hi => ?_) fun i d hd => ?_
  · have hothers (hd : s.places[i]? = some (some d)) : i ∈ others ↔ d.meets cells = true := by
      have hmem : i ∈ s.touched cells ↔ ∃ c, s.places[i]? = some (some c) ∧ c.meets cells = true :=
        h.mem_touched_iff
      rw [hsome, List.mem_cons, or_iff_right hi] at hmem
      rw [hmem]
      simp [hd]
    rw [getElem?_joined_of_ne c others hi]
    split
    · rename_i hmem
      refine ⟨fun hnone => by simp at hnone, fun ⟨hd, hapart⟩ => ?_⟩
      have hmeets := (hothers hd).1 hmem
      obtain ⟨cell, -, hcell⟩ := Cluster.meets_iff.1 hmeets
      exact absurd (hsub hd hmeets hcell) (hapart hcell)
    · rename_i hnot
      refine ⟨fun hd => ⟨hd, hdisjoint hd ?_⟩, And.left⟩
      rwa [← Bool.not_eq_true, ← hothers hd]
  · cases hmeets : d.meets cells with
    | true => exact .inl (hsub hd hmeets)
    | false =>
      refine .inr ⟨fun hi => ?_, hdisjoint hd hmeets⟩
      rw [hi, hj.place] at hd
      cases hd
      exact Bool.noConfusion (hmeets.symm.trans hj.meets)

/-! ## Main results -/

/-- **Entering a vertex in the table** does to the clusters what it should. -/
theorem Indexed.enters (h : s.Indexed) (v : Vec3 K) (cells : List WeldCell) :
    Cluster.Enters v cells s.clusters (s.enter v cells).clusters := by
  cases htouched : s.touched cells with
  | nil => exact h.enters_of_none htouched v
  | cons target others =>
    obtain ⟨oldest, hj⟩ := h.joins htouched
    exact hj.enters h htouched v

/-- **And the table stays in agreement with the clusters.** -/
theorem Indexed.enter (h : s.Indexed) (v : Vec3 K) (cells : List WeldCell) :
    (s.enter v cells).Indexed := by
  cases htouched : s.touched cells with
  | nil => exact h.enter_of_none htouched v
  | cons target others => exact h.enter_of_some htouched v

end Clustering

end Isomesh
