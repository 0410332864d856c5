import Mathlib

/-!
# Contracting an edge of a closed surface

A surface as a set of faces, each a set of vertices. It is closed if each face has three vertices and each
edge is in two faces. That says nothing about a vertex: the faces around it may form several umbrellas,
and the surface is pinched there.

An edge is contracted to a new vertex: the faces at both ends disappear, and in all others the new vertex
takes the place of an end. Each edge at the new vertex comes from an edge at one end or from two edges, one
at either end. That it is in two faces again takes two conditions: a vertex next to both ends is in a face
with both, and no face at one end lies over the same edge as a face at the other.

* `FaceSet.two_mul_card_edges`: edges and faces of a closed surface.
* `FaceSet.Contractible`: the two conditions, and what the edge and the new vertex have to be.
* `FaceSet.Contractible.card_along_apex_add`: the faces along an edge at the new vertex.
* `FaceSet.Contractible.isClosed`: the surface stays closed.
* `FaceSet.Contractible.card_add`, `card_edges_add`, `card_vertices_add`: what disappears.
-/

set_option autoImplicit false

namespace Isomesh

/-- Some faces, each given by its vertices. -/
abbrev FaceSet (κ : Type) := Finset (Finset κ)

variable {κ : Type} [DecidableEq κ]

namespace FaceSet

/-- The faces with two given vertices. -/
def along (F : FaceSet κ) (x y : κ) : FaceSet κ := F.filter fun f => x ∈ f ∧ y ∈ f

/-- The pairs of vertices of a face. -/
def edges (F : FaceSet κ) : Finset (Finset κ) := F.biUnion (Finset.powersetCard 2)

/-- The vertices of all faces. -/
def vertices (F : FaceSet κ) : Finset κ := F.biUnion id

/-- Whether each face has three vertices and each edge is in two faces. -/
structure IsClosed (F : FaceSet κ) : Prop where
  card_face : ∀ f ∈ F, f.card = 3
  card_along : ∀ x y, x ≠ y → (F.along x y).Nonempty → (F.along x y).card = 2

variable {F : FaceSet κ} {f g : Finset κ} {x y : κ}

theorem mem_along : f ∈ F.along x y ↔ f ∈ F ∧ x ∈ f ∧ y ∈ f := Finset.mem_filter

theorem mem_vertices : x ∈ F.vertices ↔ ∃ f ∈ F, x ∈ f := by simp [vertices]

theorem mem_edges {e : Finset κ} : e ∈ F.edges ↔ ∃ f ∈ F, e ⊆ f ∧ e.card = 2 := by
  simp [edges, Finset.mem_powersetCard]

theorem along_comm (F : FaceSet κ) (x y : κ) : F.along x y = F.along y x :=
  Finset.filter_congr fun _ _ => and_comm

namespace IsClosed

theorem card_along_eq (h : F.IsClosed) (hne : x ≠ y) :
    (F.along x y).card = 0 ∨ (F.along x y).card = 2 := by
  rcases (F.along x y).eq_empty_or_nonempty with hnone | hsome
  · exact .inl (Finset.card_eq_zero.2 hnone)
  · exact .inr (h.card_along x y hne hsome)

/-- A face is known by three of its vertices. -/
theorem eq_of_mem {z : κ} (h : F.IsClosed) (hxy : x ≠ y) (hxz : x ≠ z) (hyz : y ≠ z)
    (hf : f ∈ F) (hfx : x ∈ f) (hfy : y ∈ f) (hfz : z ∈ f) : f = {x, y, z} := by
  refine (Finset.eq_of_subset_of_card_le ?_ ?_).symm
  · simp [Finset.insert_subset_iff, hfx, hfy, hfz]
  · rw [h.card_face f hf, Finset.card_eq_three.2 ⟨x, y, z, hxy, hxz, hyz, rfl⟩]

/-- Across an edge of a face there is a face without its third vertex. -/
theorem exists_across (h : F.IsClosed) {z : κ} (hxy : x ≠ y) (hxz : x ≠ z) (hyz : y ≠ z)
    (hf : f ∈ F) (hfx : x ∈ f) (hfy : y ∈ f) (hfz : z ∈ f) : ∃ g ∈ F, x ∈ g ∧ y ∈ g ∧ z ∉ g := by
  have hmem : f ∈ F.along x y := mem_along.2 ⟨hf, hfx, hfy⟩
  have htwo : 1 < (F.along x y).card := by rw [h.card_along x y hxy ⟨f, hmem⟩]; decide
  obtain ⟨g, hg, hne⟩ := Finset.exists_mem_ne htwo f
  obtain ⟨hg, hgx, hgy⟩ := mem_along.1 hg
  refine ⟨g, hg, hgx, hgy, fun hgz => hne ?_⟩
  rw [h.eq_of_mem hxy hxz hyz hg hgx hgy hgz, h.eq_of_mem hxy hxz hyz hf hfx hfy hfz]

/-- **Two faces at each edge and three edges of each face**: by counting the pairs of both. -/
theorem two_mul_card_edges (h : F.IsClosed) : 2 * F.edges.card = 3 * F.card := by
  have hthree : ∀ f ∈ F, (F.edges.bipartiteAbove (fun f e => e ⊆ f) f).card = 3 := by
    intro f hf
    have hsides : F.edges.bipartiteAbove (fun f e => e ⊆ f) f = f.powersetCard 2 := by
      ext e
      rw [Finset.mem_bipartiteAbove, mem_edges, Finset.mem_powersetCard]
      exact ⟨fun ⟨⟨_, _, _, hcard⟩, hsub⟩ => ⟨hsub, hcard⟩,
        fun ⟨hsub, hcard⟩ => ⟨⟨f, hf, hsub, hcard⟩, hsub⟩⟩
    rw [hsides, Finset.card_powersetCard, h.card_face f hf]
    rfl
  have htwo : ∀ e ∈ F.edges, (F.bipartiteBelow (fun f e => e ⊆ f) e).card = 2 := by
    intro e he
    obtain ⟨f, hf, hsub, hcard⟩ := mem_edges.1 he
    obtain ⟨x, y, hne, rfl⟩ := Finset.card_eq_two.1 hcard
    have halong : F.bipartiteBelow (fun f e => e ⊆ f) {x, y} = F.along x y :=
      Finset.filter_congr fun f _ => by simp [Finset.insert_subset_iff]
    rw [halong]
    exact h.card_along x y hne ⟨f, mem_along.2 ⟨hf, hsub (by simp), hsub (by simp)⟩⟩
  have hpairs := Finset.card_mul_eq_card_mul _ hthree htwo
  omega

end IsClosed

/-! ## Contractions -/

variable {a b c : κ}

/-- Takes both ends of an edge to a new vertex. -/
def merge (a b c x : κ) : κ := if x = a ∨ x = b then c else x

/-- The faces that are not at both ends of an edge, with the new vertex in the place of an end. -/
def contract (F : FaceSet κ) (a b c : κ) : FaceSet κ :=
  (F.filter fun f => ¬(a ∈ f ∧ b ∈ f)).image (Finset.image (merge a b c))

/-- Whether an edge can be contracted to a new vertex. -/
structure Contractible (F : FaceSet κ) (a b c : κ) : Prop where
  isClosed : F.IsClosed
  ne : a ≠ b
  edge : ∃ f ∈ F, a ∈ f ∧ b ∈ f
  /-- The new vertex is none yet. -/
  fresh : ∀ f ∈ F, c ∉ f
  /-- A vertex next to both ends is in a face with both. -/
  link : ∀ x, x ≠ a → x ≠ b → (F.along a x).Nonempty → (F.along b x).Nonempty →
    ∃ f ∈ F, (a ∈ f ∧ b ∈ f) ∧ x ∈ f
  /-- No edge lies across from one end and from the other, in faces at one end only. -/
  outer : ∀ f ∈ F, ∀ g ∈ F, a ∈ f → b ∉ f → b ∈ g → a ∉ g → f.erase a ≠ g.erase b

theorem mem_image_merge (hc : c ∉ f) : x ∈ f.image (merge a b c) ↔
    x = c ∧ (a ∈ f ∨ b ∈ f) ∨ x ∈ f ∧ x ≠ a ∧ x ≠ b := by
  simp only [Finset.mem_image, merge]
  grind

namespace Contractible

theorem ne_apex (h : F.Contractible a b c) : a ≠ c ∧ b ≠ c := by
  obtain ⟨f, hf, ha, hb⟩ := h.edge
  exact ⟨fun heq => h.fresh f hf (heq ▸ ha), fun heq => h.fresh f hf (heq ▸ hb)⟩

theorem mem_merge (h : F.Contractible a b c) (hf : f ∈ F) :
    x ∈ f.image (merge a b c) ↔ x = c ∧ (a ∈ f ∨ b ∈ f) ∨ x ∈ f ∧ x ≠ a ∧ x ≠ b :=
  mem_image_merge (h.fresh f hf)

/-- **No two of the remaining faces fall together.** -/
theorem injOn_merge (h : F.Contractible a b c) :
    Set.InjOn (Finset.image (merge a b c)) (F.filter fun f => ¬(a ∈ f ∧ b ∈ f) : FaceSet κ) := by
  intro f hf g hg heq
  obtain ⟨hf, hfone⟩ := Finset.mem_filter.1 hf
  obtain ⟨hg, hgone⟩ := Finset.mem_filter.1 hg
  have hmem (x : κ) : x = c ∧ (a ∈ f ∨ b ∈ f) ∨ x ∈ f ∧ x ≠ a ∧ x ≠ b ↔
      x = c ∧ (a ∈ g ∨ b ∈ g) ∨ x ∈ g ∧ x ≠ a ∧ x ≠ b := by
    rw [← h.mem_merge hf, ← h.mem_merge hg]
    exact heq ▸ Iff.rfl
  have hend : (a ∈ f ∨ b ∈ f) ↔ (a ∈ g ∨ b ∈ g) := by
    simpa [h.fresh f hf, h.fresh g hg] using hmem c
  have haway {x : κ} (ha : x ≠ a) (hb : x ≠ b) : x ∈ f ↔ x ∈ g := by
    by_cases hc : x = c
    · simp [hc, h.fresh f hf, h.fresh g hg]
    · simpa [hc, ha, hb] using hmem x
  -- faces at different ends would lie over the same edge
  have hsame : a ∈ f ↔ a ∈ g := by
    by_contra hdiff
    have hfg := h.outer f hf g hg
    have hgf := h.outer g hg f hf
    simp only [ne_eq, Finset.ext_iff, Finset.mem_erase] at hfg hgf
    grind
  ext x
  by_cases ha : x = a
  · rw [ha, hsame]
  by_cases hb : x = b
  · rw [hb]
    grind
  · exact haway ha hb

theorem card_along_contract (h : F.Contractible a b c) (x y : κ) :
    ((F.contract a b c).along x y).card = (F.filter fun f => ¬(a ∈ f ∧ b ∈ f) ∧
      x ∈ f.image (merge a b c) ∧ y ∈ f.image (merge a b c)).card := by
  rw [along, contract, Finset.filter_image, Finset.filter_filter, Finset.card_image_of_injOn]
  refine h.injOn_merge.mono fun f hf => ?_
  obtain ⟨hf, hone, -⟩ := Finset.mem_filter.1 (Finset.mem_coe.1 hf)
  exact Finset.mem_coe.2 (Finset.mem_filter.2 ⟨hf, hone⟩)

/-- The ends have left the surface. -/
theorem notMem_contract (h : F.Contractible a b c) (hf : f ∈ F.contract a b c) : a ∉ f ∧ b ∉ f := by
  obtain ⟨g, hg, rfl⟩ := Finset.mem_image.1 hf
  obtain ⟨hg, -⟩ := Finset.mem_filter.1 hg
  rw [h.mem_merge hg, h.mem_merge hg]
  simp [h.ne_apex.1, h.ne_apex.2]

/-- Away from the ends and the new vertex each edge is in the faces in which it was. -/
theorem card_along_away (h : F.Contractible a b c) (hxy : x ≠ y) (hx : x ∉ [a, b, c])
    (hy : y ∉ [a, b, c]) : ((F.contract a b c).along x y).card = (F.along x y).card := by
  simp only [List.mem_cons, List.not_mem_nil, or_false, not_or] at hx hy
  rw [h.card_along_contract]
  congr 1
  refine Finset.filter_congr fun f hf => ?_
  rw [h.mem_merge hf, h.mem_merge hf]
  simp only [hx, hy, false_and, false_or, ne_eq, not_false_eq_true, and_true, and_iff_right_iff_imp,
    not_and]
  -- a face has no room for both ends and two more vertices
  rintro ⟨hfx, hfy⟩ ha hb
  have heq := h.isClosed.eq_of_mem h.ne (Ne.symm hx.1) (Ne.symm hx.2.1) hf ha hb hfx
  rw [heq] at hfy
  simp only [Finset.mem_insert, Finset.mem_singleton, hy.1, hy.2.1, false_or] at hfy
  exact hxy hfy.symm

/-- An edge at the new vertex is in the faces of the two edges it comes from, without the faces at both
ends. -/
theorem card_along_apex_add (h : F.Contractible a b c) (hx : x ∉ [a, b, c]) :
    ((F.contract a b c).along c x).card + 2 * (F.filter fun f => (a ∈ f ∧ b ∈ f) ∧ x ∈ f).card =
      (F.along a x).card + (F.along b x).card := by
  simp only [List.mem_cons, List.not_mem_nil, or_false, not_or] at hx
  have hcontract : ((F.contract a b c).along c x).card =
      (F.filter fun f => ¬(a ∈ f ∧ b ∈ f) ∧ (a ∈ f ∨ b ∈ f) ∧ x ∈ f).card := by
    rw [h.card_along_contract]
    congr 1
    refine Finset.filter_congr fun f hf => ?_
    rw [h.mem_merge hf, h.mem_merge hf]
    simp [hx, h.fresh f hf]
  have hor : (F.filter fun f => ¬(a ∈ f ∧ b ∈ f) ∧ (a ∈ f ∨ b ∈ f) ∧ x ∈ f) =
      (F.along a x ∪ F.along b x) \ (F.along a x ∩ F.along b x) := by
    ext f
    simp only [Finset.mem_filter, Finset.mem_sdiff, Finset.mem_union, Finset.mem_inter, mem_along]
    tauto
  have hand : (F.filter fun f => (a ∈ f ∧ b ∈ f) ∧ x ∈ f) = F.along a x ∩ F.along b x := by
    ext f
    simp only [Finset.mem_filter, Finset.mem_inter, mem_along]
    tauto
  have hsub : F.along a x ∩ F.along b x ⊆ F.along a x ∪ F.along b x :=
    Finset.inter_subset_left.trans Finset.subset_union_left
  have hsdiff := Finset.card_sdiff_add_card_eq_card hsub
  have hunion := Finset.card_union_add_card_inter (F.along a x) (F.along b x)
  rw [hcontract, hor, hand]
  omega

/-- The faces with both ends and one more vertex. -/
theorem card_filter_le_one (h : F.Contractible a b c) (ha : x ≠ a) (hb : x ≠ b) :
    (F.filter fun f => (a ∈ f ∧ b ∈ f) ∧ x ∈ f).card ≤ 1 := by
  refine Finset.card_le_one.2 fun f hf g hg => ?_
  obtain ⟨hf, ⟨hfa, hfb⟩, hfx⟩ := Finset.mem_filter.1 hf
  obtain ⟨hg, ⟨hga, hgb⟩, hgx⟩ := Finset.mem_filter.1 hg
  rw [h.isClosed.eq_of_mem h.ne ha.symm hb.symm hf hfa hfb hfx,
    h.isClosed.eq_of_mem h.ne ha.symm hb.symm hg hga hgb hgx]

/-- **Each edge at the new vertex is in two faces.** The edges at the ends from which it comes are in two
each. If they are in a face with both ends, they lose one face each; otherwise there is only one edge. -/
theorem card_along_apex (h : F.Contractible a b c) (hx : x ∉ [a, b, c]) :
    ((F.contract a b c).along c x).card = 0 ∨ ((F.contract a b c).along c x).card = 2 := by
  have hadd := h.card_along_apex_add hx
  simp only [List.mem_cons, List.not_mem_nil, or_false, not_or] at hx
  have hle := h.card_filter_le_one hx.1 hx.2.1
  have hatA := h.isClosed.card_along_eq (Ne.symm hx.1)
  have hatB := h.isClosed.card_along_eq (Ne.symm hx.2.1)
  have hlink := h.link x hx.1 hx.2.1
  simp only [← Finset.card_pos] at hlink
  rcases Nat.eq_zero_or_pos (F.filter fun f => (a ∈ f ∧ b ∈ f) ∧ x ∈ f).card with hnone | hpos
  · have hempty := Finset.filter_eq_empty_iff.1 (Finset.card_eq_zero.1 hnone)
    have hnot : ¬(0 < (F.along a x).card ∧ 0 < (F.along b x).card) := by
      rintro ⟨hposA, hposB⟩
      obtain ⟨f, hf, hends⟩ := hlink hposA hposB
      exact hempty hf hends
    omega
  · obtain ⟨f, hf⟩ := Finset.card_pos.1 hpos
    obtain ⟨hf, ⟨hfa, hfb⟩, hfx⟩ := Finset.mem_filter.1 hf
    have hposA : 0 < (F.along a x).card := Finset.card_pos.2 ⟨f, mem_along.2 ⟨hf, hfa, hfx⟩⟩
    have hposB : 0 < (F.along b x).card := Finset.card_pos.2 ⟨f, mem_along.2 ⟨hf, hfb, hfx⟩⟩
    omega

/-- A face keeps its number of vertices. -/
theorem card_image_merge (h : F.Contractible a b c) (hf : f ∈ F) (hone : ¬(a ∈ f ∧ b ∈ f)) :
    (f.image (merge a b c)).card = f.card := by
  refine Finset.card_image_of_injOn fun x hx y hy heq => ?_
  have hfresh := h.fresh f hf
  simp only [Finset.mem_coe] at hx hy
  simp only [merge] at heq
  grind

/-- **A contraction keeps a surface closed.** -/
theorem isClosed_contract (h : F.Contractible a b c) : (F.contract a b c).IsClosed where
  card_face f hf := by
    obtain ⟨g, hg, rfl⟩ := Finset.mem_image.1 hf
    obtain ⟨hg, hone⟩ := Finset.mem_filter.1 hg
    rw [h.card_image_merge hg hone, h.isClosed.card_face g hg]
  card_along x y hxy hsome := by
    obtain ⟨f, hf⟩ := hsome
    have hpos := Finset.card_pos.2 ⟨f, hf⟩
    obtain ⟨hf, hfx, hfy⟩ := mem_along.1 hf
    obtain ⟨ha, hb⟩ := h.notMem_contract hf
    have hx : x ≠ a ∧ x ≠ b := ⟨fun heq => ha (heq ▸ hfx), fun heq => hb (heq ▸ hfx)⟩
    have hy : y ≠ a ∧ y ≠ b := ⟨fun heq => ha (heq ▸ hfy), fun heq => hb (heq ▸ hfy)⟩
    by_cases hxc : x = c
    · subst hxc
      exact (h.card_along_apex (by simp [hy, hxy.symm])).resolve_left hpos.ne'
    by_cases hyc : y = c
    · subst hyc
      rw [along_comm] at hpos ⊢
      exact (h.card_along_apex (by simp [hx, hxy])).resolve_left hpos.ne'
    · rw [h.card_along_away hxy (by simp [hx, hxc]) (by simp [hy, hyc])] at hpos ⊢
      exact (h.isClosed.card_along_eq hxy).resolve_left hpos.ne'

/-! ## What disappears -/

theorem card_add (h : F.Contractible a b c) : (F.contract a b c).card + 2 = F.card := by
  obtain ⟨f, hf, hends⟩ := h.edge
  have htwo : (F.filter fun f => a ∈ f ∧ b ∈ f).card = 2 :=
    h.isClosed.card_along a b h.ne ⟨f, mem_along.2 ⟨hf, hends⟩⟩
  rw [contract, Finset.card_image_of_injOn h.injOn_merge, ← htwo, add_comm,
    Finset.card_filter_add_card_filter_not]

theorem card_edges_add (h : F.Contractible a b c) :
    (F.contract a b c).edges.card + 3 = F.edges.card := by
  have hbefore := h.isClosed.two_mul_card_edges
  have hafter := h.isClosed_contract.two_mul_card_edges
  have hfaces := h.card_add
  omega

/-- A vertex other than the ends stays: if it is in a face with both ends, it is also in the one across
from there. -/
theorem vertices_contract (h : F.Contractible a b c) :
    (F.contract a b c).vertices = insert c ((F.vertices.erase a).erase b) := by
  have hin {f : Finset κ} (hf : f ∈ F) (hone : ¬(a ∈ f ∧ b ∈ f)) :
      f.image (merge a b c) ∈ F.contract a b c :=
    Finset.mem_image_of_mem _ (Finset.mem_filter.2 ⟨hf, hone⟩)
  ext x
  simp only [mem_vertices, Finset.mem_insert, Finset.mem_erase]
  constructor
  · rintro ⟨_, hmerged, hx⟩
    obtain ⟨f, hkept, rfl⟩ := Finset.mem_image.1 hmerged
    have hf := (Finset.mem_filter.1 hkept).1
    exact ((h.mem_merge hf).1 hx).imp And.left fun hx => ⟨hx.2.2, hx.2.1, f, hf, hx.1⟩
  · rintro (rfl | ⟨hb, ha, f, hf, hx⟩)
    · obtain ⟨f, hf, hfa, hfb⟩ := h.edge
      obtain ⟨z, hz, hza, hzb⟩ : ∃ z ∈ f, z ≠ a ∧ z ≠ b := by
        have hlt : ({a, b} : Finset κ).card < f.card := by
          rw [h.isClosed.card_face f hf, Finset.card_pair h.ne]
          decide
        obtain ⟨z, hz, hnot⟩ := Finset.exists_mem_notMem_of_card_lt_card hlt
        exact ⟨z, hz, by simpa [not_or] using hnot⟩
      obtain ⟨g, hg, hga, -, hgb⟩ :=
        h.isClosed.exists_across hza.symm h.ne hzb hf hfa hz hfb
      exact ⟨_, hin hg fun hends => hgb hends.2, (h.mem_merge hg).2 (.inl ⟨rfl, .inl hga⟩)⟩
    · by_cases hends : a ∈ f ∧ b ∈ f
      · obtain ⟨g, hg, -, hgx, hgb⟩ :=
          h.isClosed.exists_across (Ne.symm ha) h.ne hb hf hends.1 hx hends.2
        exact ⟨_, hin hg fun hends => hgb hends.2, (h.mem_merge hg).2 (.inr ⟨hgx, ha, hb⟩)⟩
      · exact ⟨_, hin hf hends, (h.mem_merge hf).2 (.inr ⟨hx, ha, hb⟩)⟩

theorem card_vertices_add (h : F.Contractible a b c) :
    (F.contract a b c).vertices.card + 1 = F.vertices.card := by
  obtain ⟨f, hf, ha, hb⟩ := h.edge
  have hmemA : a ∈ F.vertices := mem_vertices.2 ⟨f, hf, ha⟩
  have hmemB : b ∈ F.vertices.erase a := Finset.mem_erase.2 ⟨h.ne.symm, mem_vertices.2 ⟨f, hf, hb⟩⟩
  have hfresh : c ∉ (F.vertices.erase a).erase b := fun hc => by
    obtain ⟨g, hg, hcg⟩ := mem_vertices.1 (Finset.mem_of_mem_erase (Finset.mem_of_mem_erase hc))
    exact h.fresh g hg hcg
  rw [h.vertices_contract, Finset.card_insert_of_notMem hfresh, Finset.card_erase_add_one hmemB,
    Finset.card_erase_add_one hmemA]

end Contractible

end FaceSet

end Isomesh
