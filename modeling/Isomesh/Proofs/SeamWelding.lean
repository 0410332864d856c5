import Mathlib
import Isomesh.Proofs.EdgeCounts
import Isomesh.Proofs.WeldCells
import Isomesh.Proofs.Welding

/-!
# Welding closes seams

A mesh whose vertices are well apart is taken to pieces: each corner is displaced by less than half the
welding distance, on its own. The copies of a vertex share a cell, however the cell borders run between
them, and copies of different vertices do not, so no chain leads from one vertex to another. Welding
therefore brings the copies of each vertex together again, and nothing else.

* `Mesh.Copy`: a corner and its displaced copy.
* `Mesh.Copy.connected_iff`: chains stay at a vertex.
* `Mesh.weld_closes_seams`: the mesh that welding gives back.
-/

set_option autoImplicit false

namespace Isomesh

namespace Mesh

section Copies

variable {K : Type} [Scalar K] {m m' : Mesh K}

/-- Whether a corner of one mesh has the place of a corner of another. -/
def Copy (m m' : Mesh K) (p q : Vec3 K) : Prop :=
  ∃ e ∈ m.triangles.zip m'.triangles, (p, q) ∈ e.1.corners.zip e.2.corners

namespace Copy

variable {p q : Vec3 K}

theorem symm (h : Copy m m' p q) : Copy m' m q p := by
  obtain ⟨e, he, hpq⟩ := h
  refine ⟨e.swap, ?_, ?_⟩
  · rw [← List.zip_swap]
    exact List.mem_map_of_mem he
  · rw [Prod.fst_swap, Prod.snd_swap, ← List.zip_swap]
    exact List.mem_map_of_mem (f := Prod.swap) hpq

theorem exists_corner (h : Copy m m' p q) : ∃ t ∈ m.triangles, p ∈ t.corners := by
  obtain ⟨e, he, hpq⟩ := h
  exact ⟨e.1, (List.of_mem_zip he).1, (List.of_mem_zip hpq).1⟩

/-- Each corner has a copy in a mesh with as many triangles. -/
theorem exists_of_corner (hlength : m.triangles.length = m'.triangles.length) {t : Triangle K}
    (ht : t ∈ m.triangles) (hp : p ∈ t.corners) : ∃ q, Copy m m' p q := by
  rw [← List.map_fst_zip hlength.le] at ht
  obtain ⟨e, he, rfl⟩ := List.mem_map.1 ht
  have hcorners : e.1.corners = (e.1.corners.zip e.2.corners).map Prod.fst := rfl
  rw [hcorners] at hp
  obtain ⟨⟨_, q⟩, hpq, rfl⟩ := List.mem_map.1 hp
  exact ⟨q, e, he, hpq⟩

/-- Maps that agree on a corner and its copy make the same triangles. -/
theorem map_eq_map (hlength : m.triangles.length = m'.triangles.length) {f g : Vec3 K → Vec3 K}
    (hfg : ∀ p q, Copy m m' p q → g q = f p) :
    m'.triangles.map (·.map g) = m.triangles.map (·.map f) := by
  have hboth : ∀ e ∈ m.triangles.zip m'.triangles, e.2.map g = e.1.map f := by
    intro e he
    have hcorner : ∀ c ∈ e.1.corners.zip e.2.corners, g c.2 = f c.1 := fun c hc => hfg _ _ ⟨e, he, hc⟩
    simp only [Triangle.corners, List.zip_cons_cons, List.forall_mem_cons] at hcorner
    obtain ⟨ha, hb, hc, -⟩ := hcorner
    rw [Triangle.map, Triangle.map, ha, hb, hc]
  calc m'.triangles.map (·.map g)
      = ((m.triangles.zip m'.triangles).map Prod.snd).map (·.map g) := by
        rw [List.map_snd_zip hlength.ge]
    _ = ((m.triangles.zip m'.triangles).map Prod.fst).map (·.map f) := by
        rw [List.map_map, List.map_map]
        exact List.map_congr_left hboth
    _ = m.triangles.map (·.map f) := by rw [List.map_fst_zip hlength.le]

end Copy

end Copies

variable {K : Type} [Field K] [LinearOrder K] [IsStrictOrderedRing K] [FloorRing K] [SquareRoot K]
  {m m' : Mesh K} {epsilon : K}

/-! ## Displaced corners -/

/-- Whether different vertices are further apart than a distance along some axis. -/
def Separated (m : Mesh K) (gap : K) : Prop :=
  ∀ u ∈ m.vertices, ∀ v ∈ m.vertices, u ≠ v → ∃ axis, gap < |u.get axis - v.get axis|

/-- Whether each corner of one mesh is closer than a distance along every axis to the corner of another
that has its place. -/
def Displaced (m m' : Mesh K) (reach : K) : Prop :=
  List.Forall₂ (fun t u => List.Forall₂ (fun p q => ∀ axis, |q.get axis - p.get axis| < reach)
    t.corners u.corners) m.triangles m'.triangles

theorem Displaced.abs_sub_lt (h : m.Displaced m' epsilon) {p q : Vec3 K} (hpq : Copy m m' p q)
    (axis : Axis) : |q.get axis - p.get axis| < epsilon := by
  obtain ⟨e, he, hc⟩ := hpq
  exact (List.forall₂_iff_zip.1 ((List.forall₂_iff_zip.1 h).2 he)).2 hc axis

namespace Copy

variable {p q p' q' : Vec3 K}

theorem mem_vertices (h : Copy m m' p q) : p ∈ m.vertices := by
  obtain ⟨t, ht, hp⟩ := h.exists_corner
  exact mem_vertices_of_corner ht hp

/-- Each vertex of the displaced mesh is a copy. -/
theorem exists_of_vertex (hlength : m.triangles.length = m'.triangles.length)
    (hq : q ∈ m'.vertices) : ∃ p, Copy m m' p q := by
  obtain ⟨t, ht, hqt⟩ := exists_corner_of_vertex hq
  obtain ⟨p, hcopy⟩ := exists_of_corner hlength.symm ht hqt
  exact ⟨p, hcopy.symm⟩

/-- Copies share a cell just when they are copies of the same vertex. -/
theorem linked_iff (hpos : 0 < epsilon) (hapart : m.Separated (3 * epsilon))
    (hnear : m.Displaced m' (epsilon / 2)) (hp : Copy m m' p p') (hq : Copy m m' q q') :
    Linked (weldCells epsilon) p' q' ↔ p = q := by
  have hp' := fun axis => abs_lt.1 (hnear.abs_sub_lt hp axis)
  have hq' := fun axis => abs_lt.1 (hnear.abs_sub_lt hq axis)
  constructor
  · intro hlink
    by_contra hne
    obtain ⟨axis, hgap⟩ := hapart p hp.mem_vertices q hq.mem_vertices hne
    have hclose : |p.get axis - q.get axis| < 3 * epsilon := by
      have hle := abs_le.1 (abs_sub_le_of_linked hpos hlink axis)
      rw [abs_lt]
      constructor <;> linarith [hp' axis, hq' axis]
    exact lt_asymm hgap hclose
  · rintro rfl
    refine linked_of_abs_sub_lt hpos fun axis => ?_
    rw [abs_lt]
    constructor <;> linarith [hp' axis, hq' axis]

/-- **A chain of copies stays at one vertex.** -/
theorem connected_iff (hpos : 0 < epsilon) (hapart : m.Separated (3 * epsilon))
    (hnear : m.Displaced m' (epsilon / 2)) (hp : Copy m m' p p') (hq : Copy m m' q q') :
    Connected (weldCells epsilon) m'.vertices p' q' ↔ p = q := by
  constructor
  · intro hconn
    induction hconn generalizing q with
    | refl => exact (linked_iff hpos hapart hnear hp hq).1 (linked_of_abs_sub_lt hpos (by simp [hpos]))
    | tail _ hstep ih =>
      obtain ⟨hr, -, hlink⟩ := hstep
      obtain ⟨r, hcopy⟩ := exists_of_vertex hnear.length_eq hr
      exact (ih hcopy).trans ((linked_iff hpos hapart hnear hcopy hq).1 hlink)
  · intro heq
    exact Relation.ReflTransGen.single ⟨hp.symm.mem_vertices, hq.symm.mem_vertices,
      (linked_iff hpos hapart hnear hp hq).2 heq⟩

end Copy

/-! ## Main result -/

/-- Corners go to the same place just when they are copies of the same vertex. -/
theorem Copy.weldTarget_eq_iff (hpos : 0 < epsilon) (hapart : m.Separated (3 * epsilon))
    (hnear : m.Displaced m' (epsilon / 2)) {p q p' q' : Vec3 K} (hp : Copy m m' p p')
    (hq : Copy m m' q q') :
    m'.weldTarget (weldCells epsilon) p' = m'.weldTarget (weldCells epsilon) q' ↔ p = q :=
  (Mesh.weldTarget_eq_iff hp.symm.mem_vertices hq.symm.mem_vertices).trans
    (hp.connected_iff hpos hapart hnear hq)

/-- **Welding closes seams.** When the vertices of a mesh are more than three welding distances apart
along some axis, and each corner has been displaced by less than half the distance along every axis,
welding gives the triangles of the mesh in their order with the vertices moved, different ones to
different places. So there are as many irregular edges as before. -/
theorem weld_closes_seams (hpos : 0 < epsilon) (hbuilt : m.Built)
    (hapart : m.Separated (3 * epsilon)) (hnear : m.Displaced m' (epsilon / 2)) :
    ∃ (welded : Mesh K) (f : Vec3 K → Vec3 K), m'.weld epsilon = .ok welded ∧
      welded.triangles = m.triangles.map (·.map f) ∧
      (∀ t ∈ m.triangles, ∀ p ∈ t.corners, ∀ u ∈ m.triangles, ∀ q ∈ u.corners,
        (f p).key = (f q).key ↔ p.key = q.key) ∧
      welded.irregularEdges = m.irregularEdges := by
  classical
  -- a vertex goes where one of its copies goes
  let target := m'.weldTarget (weldCells epsilon)
  let f (p : Vec3 K) : Vec3 K := if h : ∃ q, Copy m m' p q then target h.choose else p
  have hf : ∀ p q, Copy m m' p q → target q = f p := by
    intro p q hcopy
    have hex : ∃ q, Copy m m' p q := ⟨q, hcopy⟩
    have hchosen : f p = target hex.choose := dif_pos hex
    rw [hchosen]
    exact (hcopy.weldTarget_eq_iff hpos hapart hnear hex.choose_spec).2 rfl
  have htriangles : (m'.weldBy (weldCells epsilon)).triangles = m.triangles.map (·.map f) :=
    (m'.triangles_weldBy _).trans (Copy.map_eq_map hnear.length_eq hf)
  have hkeys : ∀ t ∈ m.triangles, ∀ p ∈ t.corners, ∀ u ∈ m.triangles, ∀ q ∈ u.corners,
      (f p).key = (f q).key ↔ p.key = q.key := by
    intro t ht p hp u hu q hq
    obtain ⟨p', hcopy⟩ := Copy.exists_of_corner hnear.length_eq ht hp
    obtain ⟨q', hcopy'⟩ := Copy.exists_of_corner hnear.length_eq hu hq
    rw [Exact.key_inj, Exact.key_inj, ← hf p p' hcopy, ← hf q q' hcopy']
    exact hcopy.weldTarget_eq_iff hpos hapart hnear hcopy'
  refine ⟨m'.weldBy (weldCells epsilon), f, m'.weld_eq_ok (Exact.isFinite_eq_true _) hpos, htriangles,
    hkeys, ?_⟩
  have hinj : Set.InjOn (fun k : VertexKey K => (f ⟨k.x, k.y, k.z⟩).key) (cornerKeys m.triangles) := by
    rintro _ ⟨t, ht, hk⟩ _ ⟨u, hu, hl⟩ heq
    obtain ⟨p, hp, rfl⟩ := List.mem_map.1 hk
    obtain ⟨q, hq, rfl⟩ := List.mem_map.1 hl
    exact (hkeys t ht p hp u hu q hq).1 heq
  have hcoherent : (m'.weldBy (weldCells epsilon)).Coherent := coherent_ofTriangles _
  rw [hcoherent.irregularEdges_eq_card, hbuilt.coherent.irregularEdges_eq_card, htriangles]
  exact card_irregularPairs_map (fun _ => rfl) hinj

/-- Two triangles at an edge that lies on a cell border. -/
def roof : Mesh ℚ :=
  .ofTriangles [⟨⟨1 / 2, 0, 0⟩, ⟨1 / 2, 5, 0⟩, ⟨-5, 0, -5⟩⟩, ⟨⟨1 / 2, 5, 0⟩, ⟨1 / 2, 0, 0⟩, ⟨5, 0, -5⟩⟩]

/-- The same with its sides torn apart. -/
def tornRoof : Mesh ℚ :=
  .ofTriangles [⟨⟨1 / 10, 0, 0⟩, ⟨1 / 10, 5, 0⟩, ⟨-5, 0, -5⟩⟩,
    ⟨⟨9 / 10, 5, 0⟩, ⟨9 / 10, 0, 1 / 4⟩, ⟨5, 0, -5⟩⟩]

theorem tornRoof_closes : roof.Built ∧ roof.Separated (3 * 1) ∧ roof.Displaced tornRoof (1 / 2) ∧
    tornRoof.irregularEdges = 6 ∧
      ∃ welded, tornRoof.weld 1 = .ok welded ∧ welded.irregularEdges = 4 := by
  have hbuilt : roof.Built := built_ofTriangles _
  have hgaps : ∀ u ∈ roof.vertices, ∀ v ∈ roof.vertices, u ≠ v →
      ∃ axis ∈ Axis.all, 3 * 1 < |u.get axis - v.get axis| := by decide +kernel
  have hapart : roof.Separated (3 * 1) := fun u hu v hv hne =>
    (hgaps u hu v hv hne).imp fun _ => And.right
  have hreach : List.Forall₂ (fun t u : Triangle ℚ => List.Forall₂ (fun p q => ∀ axis ∈ Axis.all,
      |q.get axis - p.get axis| < 1 / 2) t.corners u.corners) roof.triangles tornRoof.triangles := by
    decide +kernel
  have hnear : roof.Displaced tornRoof (1 / 2) :=
    hreach.imp fun _ _ h => h.imp fun _ _ h axis => h axis axis.mem_all
  obtain ⟨welded, -, hweld, -, -, hcount⟩ := weld_closes_seams one_pos hbuilt hapart hnear
  have hroof : roof.irregularEdges = 4 := by decide +kernel
  exact ⟨hbuilt, hapart, hnear, by decide +kernel, welded, hweld, hcount.trans hroof⟩

end Mesh

end Isomesh
