import Mathlib
import Isomesh.Proofs.Binary64Order
import Isomesh.Proofs.TreeBounds

/-!
# Trees are balanced

A tree is built by halving its list, so the list is read off its leaves, and no way down is longer than
the number of times that the list can be halved. Every node inside the tree is the tree of its part of
the list and has the smallest box around it.

* `Tree.nodes`: all nodes of a tree, each with what is below it.
* `Tree.Boxed.of_mem_nodes`: the invariant holds at every node.
* `Tree.depth_ofNonempty`: the depth is that of a balanced tree.
* `Tree.built_tree_is_tight_and_balanced`: the main result.
-/

set_option autoImplicit false

namespace Isomesh.Tree

variable {K : Type}

/-- The nodes of a tree, from the top, each as the tree below it. -/
def nodes : Tree K → List (Tree K)
  | leaf t => [leaf t]
  | branch box left right => branch box left right :: (left.nodes ++ right.nodes)

/-- A node has a part of the list below it. -/
theorem triangles_isInfix_of_mem_nodes {tree node : Tree K} (hnode : node ∈ tree.nodes) :
    node.triangles <:+: tree.triangles := by
  induction tree with
  | leaf t =>
    obtain rfl := List.mem_singleton.1 hnode
    exact List.infix_rfl
  | branch box left right hl hr =>
    rw [nodes, List.mem_cons, List.mem_append] at hnode
    rcases hnode with rfl | hnode | hnode
    · exact List.infix_rfl
    · exact (hl hnode).trans (List.prefix_append ..).isInfix
    · exact (hr hnode).trans (List.suffix_append ..).isInfix

variable [Scalar K]

theorem Boxed.of_mem_nodes {tree node : Tree K} (h : tree.Boxed) (hnode : node ∈ tree.nodes) :
    node.Boxed := by
  induction tree with
  | leaf t =>
    obtain rfl := List.mem_singleton.1 hnode
    exact h
  | branch box left right hl hr =>
    rw [nodes, List.mem_cons, List.mem_append] at hnode
    rcases hnode with rfl | hnode | hnode
    · exact h
    · exact hl h.2.1 hnode
    · exact hr h.2.2 hnode

/-- The larger half of a list can be halved once less than the list. -/
theorem clog_half {n : ℕ} (h : 2 ≤ n) :
    Nat.clog 2 n = max (Nat.clog 2 (n / 2)) (Nat.clog 2 (n - n / 2)) + 1 := by
  have hlarger : n - n / 2 = (n + 2 - 1) / 2 := by omega
  rw [max_eq_right (Nat.clog_mono_right 2 (by omega)), hlarger, Nat.clog_of_two_le one_lt_two h]

/-- **The depth of a tree** is that of a balanced one, for every number of triangles. -/
theorem depth_ofNonempty (ts : List (Triangle K)) (h : 0 < ts.length) :
    (ofNonempty ts h).depth = Nat.clog 2 ts.length + 1 := by
  fun_induction ofNonempty ts h with
  | case1 ts h single => rw [depth, single, Nat.clog_one_right]
  | case2 ts h single left right =>
    have htake : (ts.take (ts.length / 2)).length = ts.length / 2 := by
      rw [List.length_take]
      omega
    have hclog := clog_half (n := ts.length) (by omega)
    rw [join, depth, left, right, htake, List.length_drop, max_add_add_right, hclog, add_comm]

/-- **The tree of a list with triangles is tight and balanced.** Its leaves from left to right are the
list. The box of every node reaches along each axis from the least to the greatest coordinate of the
corners below it, as far as these are defined. And the nodes on the longest way down are one more than
the list can be halved, rounding up, until single triangles are left. -/
theorem built_tree_is_tight_and_balanced [OrderedScalar K] {ts : List (Triangle K)} (hne : ts ≠ []) :
    ∃ tree, ofList ts = .ok tree ∧ tree.triangles = ts ∧ tree.size = ts.length ∧
      (∀ node ∈ tree.nodes, ∀ axis,
        (∀ c ∈ coordsAlong axis node.triangles, Scalar.Defined c) →
          node.bounds.Spans axis (coordsAlong axis node.triangles)) ∧
      tree.depth = Nat.clog 2 ts.length + 1 := by
  have hpos : 0 < ts.length := List.length_pos_iff.2 hne
  have htriangles := triangles_ofNonempty ts hpos
  refine ⟨ofNonempty ts hpos, dif_pos hpos, htriangles, ?_, fun node hnode axis hdef => ?_,
    depth_ofNonempty ts hpos⟩
  · rw [size_eq_length_triangles, htriangles]
  · exact ((boxed_ofNonempty ts hpos).of_mem_nodes hnode).spans hdef

/-- Five triangles of doubles, one of them with a corner at infinity. -/
def fan : List (Triangle Float) :=
  [⟨⟨0, 0, 0⟩, ⟨1, 0, 0⟩, ⟨0.5, 1, 0⟩⟩, ⟨⟨0, 0, 0⟩, ⟨0.5, 1, 0⟩, ⟨-0.5, 1, 0.1⟩⟩,
    ⟨⟨0, 0, 0⟩, ⟨-0.5, 1, 0.1⟩, ⟨-1, 0, -0.0⟩⟩, ⟨⟨0, 0, 0⟩, ⟨-1, 0, 0⟩, ⟨-0.5, -1, 0.3⟩⟩,
    ⟨⟨0, 0, 0⟩, ⟨-0.5, -1, 0.3⟩, ⟨1 / 0, -1, 0⟩⟩]

/-- The tree of five triangles has four layers, and all its boxes are the smallest. -/
theorem fan_is_tight_and_balanced : fan ≠ [] ∧ ∃ tree, ofList fan = .ok tree ∧
    tree.triangles = fan ∧ tree.size = 5 ∧
    (∀ node ∈ tree.nodes, ∀ axis, node.bounds.Spans axis (coordsAlong axis node.triangles)) ∧
    tree.depth = 4 := by
  have hne : fan ≠ [] := List.cons_ne_nil _ _
  have hdef : ∀ t ∈ fan, ∀ p ∈ t.corners, ∀ axis ∈ Axis.all, Scalar.Defined (p.get axis) := by
    decide +kernel
  obtain ⟨tree, htree, htriangles, hsize, hboxes, hdepth⟩ := built_tree_is_tight_and_balanced hne
  refine ⟨hne, tree, htree, htriangles, hsize, fun node hnode axis => hboxes node hnode axis ?_, hdepth⟩
  rintro c ⟨t, ht, p, hp, rfl⟩
  have hmem : t ∈ fan := htriangles ▸ (triangles_isInfix_of_mem_nodes hnode).subset ht
  exact hdef t hmem p hp axis axis.mem_all

end Isomesh.Tree
