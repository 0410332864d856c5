import Isomesh.Mesh.Collapse
import Isomesh.Proofs.MeshIndex

/-!
# The triangles after a collapse

A collapse visits the triangles at the ends of an edge one by one. Its result is stated by counting:
triangles at neither end stay, triangles at both ends disappear, and every other one comes back with
the midpoint in the place of its end. None of this depends on which point the midpoint is, so it is stated
of a collapse to any point.

* `Mesh.collapseTo`: a collapse to any point; `Mesh.collapse_eq_collapseTo`.
* `Collapsing.countP_foldl`: the visits of a list of triangles.
* `Mesh.Coherent.countP_collapseTo`, `countP_collapse`: the whole collapse.
* `Mesh.Coherent.collapseTo`, `collapse`: the index is kept up to date.
-/

set_option autoImplicit false

namespace Isomesh

variable {K : Type} [Scalar K]

namespace Triangle

/-- Whether a triangle is at one of the ends of an edge. -/
def atEnd (s : Segment K) (t : Triangle K) : Bool := t.hasCorner s.lo.key || t.hasCorner s.hi.key

/-- Whether a triangle is at both ends of an edge. -/
def atBoth (s : Segment K) (t : Triangle K) : Bool := t.hasCorner s.lo.key && t.hasCorner s.hi.key

/-- The triangle with a point in the place of an end of an edge. -/
def pullTo (p : Vec3 K) (s : Segment K) (t : Triangle K) : Triangle K :=
  match (t.placeOf s.lo.key).orElse fun _ => t.placeOf s.hi.key with
  | none => t
  | some place => t.replace place p

/-- The triangle with the midpoint of an edge in the place of an end. -/
def pull (s : Segment K) (t : Triangle K) : Triangle K :=
  match (t.placeOf s.lo.key).orElse fun _ => t.placeOf s.hi.key with
  | none => t
  | some place => t.replace place s.mid

theorem pull_eq_pullTo (s : Segment K) (t : Triangle K) : t.pull s = t.pullTo s.mid s := rfl

theorem exists_place_of_atEnd {s : Segment K} {t : Triangle K} (h : t.atEnd s = true) :
    ∃ place, ((t.placeOf s.lo.key).orElse fun _ => t.placeOf s.hi.key) = some place := by
  simp only [atEnd, hasCorner, Bool.or_eq_true] at h
  cases hlo : t.placeOf s.lo.key with
  | some place => exact ⟨place, rfl⟩
  | none =>
    rw [hlo] at h
    simp only [Option.isSome_none, Bool.false_eq_true, false_or] at h
    exact Option.isSome_iff_exists.1 h

end Triangle

namespace Mesh

variable {m : Mesh K}

theorem countP_add (m : Mesh K) (t : Triangle K) (P : Triangle K → Bool) :
    (m.add t).2.triangles.countP P = m.triangles.countP P + if P t then 1 else 0 := by
  have hperm : (m.add t).2.triangles.Perm (t :: m.triangles) := m.arena.values_insert t
  rw [hperm.countP_eq, List.countP_cons]

theorem countP_remove? {id : TriangleId} {t : Triangle K} {rest : Mesh K}
    (h : m.remove? id = some (t, rest)) (P : Triangle K → Bool) :
    m.triangles.countP P = rest.triangles.countP P + if P t then 1 else 0 := by
  obtain ⟨⟨t', arena⟩, harena, heq⟩ := Option.map_eq_some_iff.1 h
  cases heq
  have hperm : m.triangles.Perm (t :: arena.values) := Arena.values_remove? harena
  rw [hperm.countP_eq, List.countP_cons]
  rfl

theorem exists_remove? {id : TriangleId} {t : Triangle K} (h : m.get? id = some t) :
    ∃ rest, m.remove? id = some (t, rest) ∧ ∀ other ≠ id, rest.get? other = m.get? other := by
  obtain ⟨rest, hrem⟩ := exists_remove?_iff.2 h
  exact ⟨rest, hrem, (of_remove?_eq_some hrem).2.2⟩

theorem get?_add_of_eq_some {id : TriangleId} {t u : Triangle K} (h : m.get? id = some u) :
    (m.add t).2.get? id = some u := by
  have hne : id ≠ (m.arena.insert t).1 := by
    intro heq
    have hnone := m.arena.get?_insert_fst t
    rw [← heq] at hnone
    rw [get?, hnone] at h
    cases h
  exact (Arena.get?_insert_of_ne m.arena t hne).trans h

end Mesh

/-! ## Visits -/

namespace Collapsing

/-- Attaches a triangle to a point instead of the corner at a place. -/
def attachTo (p : Vec3 K) (c : Collapsing K) (t : Triangle K) (place : Place) : Collapsing K :=
  let (q, r) := t.following place
  let sides := [Segment.between p q, Segment.between p r]
  { mesh := (c.mesh.add (t.replace place p)).2
    waiting := sides.foldl (fun set side => set.insertIfNew side.key side) c.waiting
    added := c.added ++ sides }

/-- A visit in a collapse to any point. -/
def visitTo (p : Vec3 K) (s : Segment K) (c : Collapsing K) (id : TriangleId) (atBothEnds : Bool) :
    Collapsing K :=
  match c.mesh.remove? id with
  | none => c
  | some (t, mesh) =>
    let c := { c with mesh, waiting := c.waiting.withoutTouching s t }
    if atBothEnds then c
    else
      match (t.placeOf s.lo.key).orElse fun _ => t.placeOf s.hi.key with
      | none => c
      | some place => c.attachTo p t place

variable {p : Vec3 K} {s : Segment K} {c : Collapsing K}

theorem visitTo_spec {id : TriangleId} {t : Triangle K} (h : c.mesh.get? id = some t)
    (hend : t.atEnd s = true) (both : Bool) (P : Triangle K → Bool) :
    ((c.visitTo p s id both).mesh.triangles.countP P + (if P t then 1 else 0) =
        c.mesh.triangles.countP P + if !both && P (t.pullTo p s) then 1 else 0) ∧
      ∀ other ≠ id, ∀ u, c.mesh.get? other = some u → (c.visitTo p s id both).mesh.get? other = some u := by
  obtain ⟨rest, hrem, hrest⟩ := Mesh.exists_remove? h
  have hcount := Mesh.countP_remove? hrem P
  unfold visitTo
  simp only [hrem]
  cases both with
  | true =>
    refine ⟨?_, fun other hne u hu => ?_⟩
    · simp only [if_true, Bool.not_true, Bool.false_and, Bool.false_eq_true, if_false]
      omega
    · simp only [if_true]
      rw [hrest other hne, hu]
  | false =>
    obtain ⟨place, hplace⟩ := Triangle.exists_place_of_atEnd hend
    have hpull : t.pullTo p s = t.replace place p := by
      unfold Triangle.pullTo
      rw [hplace]
    simp only [Bool.false_eq_true, if_false, hplace, attachTo, Bool.not_false, Bool.true_and, hpull]
    refine ⟨?_, fun other hne u hu => ?_⟩
    · rw [Mesh.countP_add]
      omega
    · exact Mesh.get?_add_of_eq_some ((hrest other hne).trans hu)

theorem coherent_visitTo (h : c.mesh.Coherent) (id : TriangleId) (both : Bool) :
    (c.visitTo p s id both).mesh.Coherent := by
  unfold visitTo
  cases hrem : c.mesh.remove? id with
  | none => exact h
  | some result =>
    obtain ⟨t, rest⟩ := result
    have hrest : rest.Coherent := h.remove? hrem
    cases both with
    | true => exact hrest
    | false =>
      simp only [Bool.false_eq_true, if_false]
      split
      · exact hrest
      · exact hrest.add _

theorem countP_foldl (P : Triangle K → Bool) (work : List (TriangleId × Bool))
    (hnodup : (work.map Prod.fst).Nodup)
    (hlive : ∀ e ∈ work, ∃ t, c.mesh.get? e.1 = some t ∧ t.atEnd s = true) :
    (work.foldl (fun c e => c.visitTo p s e.1 e.2) c).mesh.triangles.countP P +
        work.countP (fun e => (c.mesh.get? e.1).any P) =
      c.mesh.triangles.countP P +
        work.countP fun e => !e.2 && (c.mesh.get? e.1).any fun t => P (t.pullTo p s) := by
  induction work generalizing c with
  | nil => rfl
  | cons e work ih =>
    obtain ⟨id, both⟩ := e
    obtain ⟨hid, hnodup⟩ := List.nodup_cons.1 hnodup
    obtain ⟨t, ht, hend⟩ : ∃ t, c.mesh.get? id = some t ∧ t.atEnd s = true :=
      hlive (id, both) List.mem_cons_self
    obtain ⟨hcount, hkeep⟩ := visitTo_spec ht hend both P
    -- the visits that remain find their triangles as they were
    have hsame : ∀ e ∈ work, (c.visitTo p s id both).mesh.get? e.1 = c.mesh.get? e.1 := by
      intro e he
      have hne : e.1 ≠ id := fun heq => hid (List.mem_map.2 ⟨e, he, heq⟩)
      obtain ⟨u, hu, -⟩ := hlive e (List.mem_cons_of_mem _ he)
      rw [hu]
      exact hkeep e.1 hne u hu
    have hrest := ih (c := c.visitTo p s id both) hnodup fun e he => by
      rw [hsame e he]
      exact hlive e (List.mem_cons_of_mem _ he)
    have h1 : work.countP (fun e => ((c.visitTo p s id both).mesh.get? e.1).any P) =
        work.countP fun e => (c.mesh.get? e.1).any P :=
      List.countP_congr fun e he => by rw [hsame e he]
    have h2 : (work.countP fun e => !e.2 &&
          ((c.visitTo p s id both).mesh.get? e.1).any fun t => P (t.pullTo p s)) =
        work.countP fun e => !e.2 && (c.mesh.get? e.1).any fun t => P (t.pullTo p s) :=
      List.countP_congr fun e he => by rw [hsame e he]
    rw [h1, h2] at hrest
    rw [List.foldl_cons, List.countP_cons, List.countP_cons]
    simp only [ht, Option.any_some]
    omega

theorem coherent_foldl (work : List (TriangleId × Bool)) (h : c.mesh.Coherent) :
    (work.foldl (fun c e => c.visitTo p s e.1 e.2) c).mesh.Coherent := by
  induction work generalizing c with
  | nil => exact h
  | cons e work ih => exact ih (coherent_visitTo h e.1 e.2)

/-- What each visit keeps, under a condition on its triangle, is kept by the visits of a list. -/
theorem foldl_induction {C : Collapsing K → Prop} {Q : Triangle K → Bool → Prop}
    (work : List (TriangleId × Bool)) (hnodup : (work.map Prod.fst).Nodup)
    (hlive : ∀ e ∈ work, ∃ t, c.mesh.get? e.1 = some t ∧ t.atEnd s = true ∧ Q t e.2)
    (hvisit : ∀ (c : Collapsing K) (id : TriangleId) (both : Bool) (t : Triangle K),
      c.mesh.get? id = some t → Q t both → C c → C (c.visitTo p s id both)) (hc : C c) :
    C (work.foldl (fun c e => c.visitTo p s e.1 e.2) c) := by
  induction work generalizing c with
  | nil => exact hc
  | cons e work ih =>
    obtain ⟨hid, hnodup⟩ := List.nodup_cons.1 hnodup
    obtain ⟨t, ht, hend, hQ⟩ := hlive e List.mem_cons_self
    refine ih hnodup (fun f hf => ?_) (hvisit c e.1 e.2 t ht hQ hc)
    obtain ⟨u, hu, hlive⟩ := hlive f (List.mem_cons_of_mem e hf)
    have hne : f.1 ≠ e.1 := fun heq => hid (List.mem_map.2 ⟨f, hf, heq⟩)
    exact ⟨u, (visitTo_spec ht hend e.2 fun _ => true).2 f.1 hne u hu, hlive⟩

end Collapsing

/-! ## The whole collapse -/

namespace Mesh

variable {m : Mesh K}

/-- The triangles that a collapse visits, in order, and whether each is at both ends. -/
def visits (m : Mesh K) (s : Segment K) : List (TriangleId × Bool) :=
  (m.trianglesAt s.lo).map (fun id => (id, (m.trianglesAt s.hi).contains id)) ++
    ((m.trianglesAt s.hi).filter fun id => !(m.trianglesAt s.lo).contains id).map fun id =>
      (id, false)

/-- A collapse to any point. -/
def collapseTo (m : Mesh K) (p : Vec3 K) (s : Segment K) (waiting : EdgeSet K) : Collapsing K :=
  (m.visits s).foldl (fun c e => c.visitTo p s e.1 e.2) ⟨m, waiting, []⟩

theorem collapse_eq_collapseTo (m : Mesh K) (s : Segment K) (waiting : EdgeSet K) :
    m.collapse s waiting = m.collapseTo s.mid s waiting := rfl

namespace Coherent

theorem nodup_visits (h : m.Coherent) (s : Segment K) : ((m.visits s).map Prod.fst).Nodup := by
  rw [visits, List.map_append, List.map_map, List.map_map]
  refine List.nodup_append.2 ⟨?_, ?_, fun a ha b hb hab => ?_⟩
  · simpa [Function.comp_def] using h.nodup_trianglesAt s.lo
  · simpa [Function.comp_def] using (h.nodup_trianglesAt s.hi).filter _
  · simp [Function.comp_def] at ha hb
    exact hb.2 (hab ▸ ha)

theorem contains_trianglesAt (h : m.Coherent) (p : Vec3 K) (id : TriangleId) :
    (m.trianglesAt p).contains id = (m.get? id).any fun t => t.hasCorner p.key := by
  rw [Bool.eq_iff_iff, List.contains_iff_mem, h.mem_trianglesAt, Option.any_eq_true]

theorem mem_visits (h : m.Coherent) {s : Segment K} {id : TriangleId} {both : Bool} :
    (id, both) ∈ m.visits s ↔
      ∃ t, m.get? id = some t ∧ t.atEnd s = true ∧ t.atBoth s = both := by
  have hmem : (id, both) ∈ m.visits s ↔
      (m.trianglesAt s.lo).contains id = true ∧ (m.trianglesAt s.hi).contains id = both ∨
        ((m.trianglesAt s.hi).contains id = true ∧ (m.trianglesAt s.lo).contains id = false) ∧
          both = false := by
    simp [visits]
  rw [hmem, h.contains_trianglesAt, h.contains_trianglesAt]
  cases m.get? id with
  | none => simp
  | some t =>
    simp only [Option.any_some, Option.some.injEq, exists_eq_left', Triangle.atEnd, Triangle.atBoth]
    grind

/-- A collapse visits each triangle at an end once. -/
theorem visits_perm (h : m.Coherent) (s : Segment K) :
    (m.visits s).Perm
      ((m.toList.filter fun e => e.2.atEnd s).map fun e => (e.1, e.2.atBoth s)) := by
  have hright : ((m.toList.filter fun e => e.2.atEnd s).map fun e => (e.1, e.2.atBoth s)).Nodup := by
    refine .of_map Prod.fst ?_
    rw [List.map_map]
    exact m.arena.nodup_ids.sublist (List.filter_sublist.map Prod.fst)
  rw [List.perm_ext_iff_of_nodup (h.nodup_visits s).of_map hright]
  rintro ⟨id, both⟩
  rw [h.mem_visits, List.mem_map]
  constructor
  · rintro ⟨t, ht, hend, rfl⟩
    exact ⟨(id, t), List.mem_filter.2 ⟨Arena.mem_toList.2 ht, hend⟩, rfl⟩
  · rintro ⟨⟨id, t⟩, he, heq⟩
    obtain ⟨rfl, rfl⟩ := Prod.mk.injEq .. ▸ heq
    obtain ⟨hmem, hend⟩ := List.mem_filter.1 he
    exact ⟨t, Arena.mem_toList.1 hmem, hend, rfl⟩

theorem countP_visits (h : m.Coherent) (s : Segment K) (Q : Bool → Triangle K → Bool) :
    (m.visits s).countP (fun e => (m.get? e.1).any (Q e.2)) =
      m.triangles.countP fun t => t.atEnd s && Q (t.atBoth s) t := by
  rw [(h.visits_perm s).countP_eq, List.countP_map, List.countP_filter, triangles, Arena.values,
    List.countP_map]
  refine List.countP_congr fun e he => ?_
  have hget : m.get? e.1 = some e.2 := Arena.mem_toList.1 he
  simp only [Function.comp_apply, hget, Option.any_some, Bool.and_comm]

/-- **The triangles after a collapse to a point**: those at neither end are as before, and those at one
end have the point in its place. -/
theorem countP_collapseTo (h : m.Coherent) (p : Vec3 K) (s : Segment K) (waiting : EdgeSet K)
    (P : Triangle K → Bool) :
    (m.collapseTo p s waiting).mesh.triangles.countP P =
      m.triangles.countP (fun t => !t.atEnd s && P t) +
        m.triangles.countP fun t => t.atEnd s && (!t.atBoth s && P (t.pullTo p s)) := by
  have hvisits := Collapsing.countP_foldl (p := p) (s := s) (c := ⟨m, waiting, []⟩) P (m.visits s)
    (h.nodup_visits s) fun e he => by
      obtain ⟨t, ht, hend, -⟩ := h.mem_visits.1 he
      exact ⟨t, ht, hend⟩
  have hgone : (m.visits s).countP (fun e => (m.get? e.1).any P) =
      m.triangles.countP fun t => t.atEnd s && P t := h.countP_visits s fun _ => P
  have hback : (m.visits s).countP (fun e => !e.2 && (m.get? e.1).any fun t => P (t.pullTo p s)) =
      m.triangles.countP fun t => t.atEnd s && (!t.atBoth s && P (t.pullTo p s)) := by
    rw [← h.countP_visits s fun both t => !both && P (t.pullTo p s)]
    refine List.countP_congr fun e _ => ?_
    cases m.get? e.1 <;> simp
  have hsplit : m.triangles.countP P = m.triangles.countP (fun t => t.atEnd s && P t) +
      m.triangles.countP fun t => !t.atEnd s && P t := by
    rw [List.countP_eq_countP_filter_add m.triangles P (Triangle.atEnd s), List.countP_filter,
      List.countP_filter]
    simp only [Bool.and_comm]
  dsimp only at hvisits
  rw [collapseTo]
  omega

/-- The triangles after a collapse to the midpoint. -/
theorem countP_collapse (h : m.Coherent) (s : Segment K) (waiting : EdgeSet K)
    (P : Triangle K → Bool) :
    (m.collapse s waiting).mesh.triangles.countP P =
      m.triangles.countP (fun t => !t.atEnd s && P t) +
        m.triangles.countP fun t => t.atEnd s && (!t.atBoth s && P (t.pull s)) := by
  simp only [collapse_eq_collapseTo, Triangle.pull_eq_pullTo]
  exact h.countP_collapseTo s.mid s waiting P

theorem collapseTo (h : m.Coherent) (p : Vec3 K) (s : Segment K) (waiting : EdgeSet K) :
    (m.collapseTo p s waiting).mesh.Coherent :=
  Collapsing.coherent_foldl (m.visits s) h

theorem collapse (h : m.Coherent) (s : Segment K) (waiting : EdgeSet K) :
    (m.collapse s waiting).mesh.Coherent := by
  rw [collapse_eq_collapseTo]
  exact h.collapseTo s.mid s waiting

end Coherent

end Mesh

end Isomesh
