import Isomesh.Simplify
import Isomesh.Proofs.CollapsedMesh

/-!
# The steps of a simplification

A step takes an edge that waits. Whatever the approval says and wherever midpoints land, an edge that
waits is an edge of the mesh: a triangle that is taken out takes its sides at the old ends with it, and
its other side stays with the triangle that comes back. So each collapse of an edge with two ends takes
a triangle away, and the run ends. All this is said of runs in which the answers and the midpoints come
from outside.

* `Guide`, `Simplifying.runBy`: such runs; `Simplifying.run_eq_runBy`.
* `Simplifying.of_stepBy_eq_onward`: what a step collapses.
* `Simplifying.Attached`: the invariant, kept by each collapse.
* `Mesh.Coherent.triangleCount_collapseTo`: how many triangles a collapse takes away.
* `Simplifying.exists_runBy`: a run that shrinks the mesh with each step ends.
* `Mesh.collapsed_ne_nil`: a run collapses an edge if there is one to collapse.
-/

set_option autoImplicit false

namespace Isomesh

variable {K : Type} [Scalar K]

/-! ## Guided runs -/

/-- What a simplification is told from outside: the answer to each question, which may depend on how many
were asked before, and the point to which an edge is collapsed. -/
structure Guide (K : Type) [Scalar K] where
  approves : Nat → Approval K
  target : Segment K → Vec3 K

/-- The same answers all the time, and collapses to midpoints. -/
def Guide.ofApproval (approve : Approval K) : Guide K := ⟨fun _ => approve, Segment.mid⟩

namespace Simplifying

/-- The first edge of a list that waits, can be collapsed and is approved, as `firstApproved`. -/
def firstChosen (g : Guide K) (w : Simplifying K) (asked : Nat) :
    List (Segment K) → Nat × Option (Segment K × List (Segment K))
  | [] => (0, none)
  | s :: rest =>
    if w.waiting.contains s.key && w.mesh.canCollapse s then
      if g.approves asked w.mesh s then (1, some (s, rest))
      else
        let (more, found) := firstChosen g w (asked + 1) rest
        (more + 1, found)
    else firstChosen g w asked rest

/-- Collapses an edge to a point, as `collapse`. -/
def collapseTo (w : Simplifying K) (p : Vec3 K) (asked : Nat) (s : Segment K)
    (rest : List (Segment K)) : Simplifying K :=
  let c := w.mesh.collapseTo p s w.waiting
  { mesh := c.mesh
    waiting := c.waiting
    queue := rest ++ c.added
    asked := w.asked + asked
    collapsed := w.collapsed ++ [s] }

/-- A step under guidance, as `step`. -/
def stepBy (g : Guide K) (w : Simplifying K) : Step K :=
  match w.firstChosen g w.asked w.queue with
  | (asked, some (s, rest)) => .onward (w.collapseTo (g.target s) asked s rest)
  | (asked, none) =>
    match w.firstChosen g (w.asked + asked) w.waiting.values with
    | (again, some (s, rest)) => .onward (w.collapseTo (g.target s) (asked + again) s rest)
    | (again, none) => .finished { w with queue := [], asked := w.asked + (asked + again) }

/-- A run under guidance, as `run`. -/
def runBy (g : Guide K) : Nat → Simplifying K → Option (Simplifying K)
  | 0, _ => none
  | steps + 1, w =>
    match w.stepBy g with
    | .finished done => some done
    | .onward next => runBy g steps next

variable {approve : Approval K} {g : Guide K} {w next done : Simplifying K}

theorem collapse_eq_collapseTo (w : Simplifying K) (asked : Nat) (s : Segment K)
    (rest : List (Segment K)) : w.collapse asked s rest = w.collapseTo s.mid asked s rest := rfl

theorem firstApproved_eq_firstChosen (approve : Approval K) (w : Simplifying K) (asked : Nat)
    (queue : List (Segment K)) :
    w.firstApproved approve queue = w.firstChosen (.ofApproval approve) asked queue := by
  induction queue generalizing asked with
  | nil => rfl
  | cons s queue ih =>
    rw [firstApproved, firstChosen, ← ih asked, ← ih (asked + 1)]
    rfl

theorem step_eq_stepBy (approve : Approval K) (w : Simplifying K) :
    w.step approve = w.stepBy (.ofApproval approve) := by
  unfold step stepBy
  rw [firstApproved_eq_firstChosen approve w w.asked]
  obtain ⟨asked, found⟩ := w.firstChosen (.ofApproval approve) w.asked w.queue
  cases found with
  | some e => rfl
  | none =>
    dsimp only
    rw [firstApproved_eq_firstChosen approve w (w.asked + asked)]
    rfl

theorem run_eq_runBy (approve : Approval K) (steps : Nat) (w : Simplifying K) :
    w.run approve steps = w.runBy (.ofApproval approve) steps := by
  induction steps generalizing w with
  | zero => rfl
  | succ steps ih =>
    rw [run, runBy, ← step_eq_stepBy]
    cases w.step approve with
    | finished done => rfl
    | onward next => exact ih next

/-! ## What a step collapses -/

theorem of_firstChosen {queue rest : List (Segment K)} {before asked : Nat} {s : Segment K}
    (h : w.firstChosen g before queue = (asked, some (s, rest))) :
    (s.key ∈ w.waiting ∧ w.mesh.canCollapse s = true ∧ ∃ n, g.approves n w.mesh s = true) ∧
      s ∈ queue ∧ rest ⊆ queue := by
  induction queue generalizing before asked with
  | nil => cases h
  | cons e queue ih =>
    unfold firstChosen at h
    split at h
    · rename_i hopen
      obtain ⟨hwaits, hcan⟩ := Bool.and_eq_true .. ▸ hopen
      split at h
      · rename_i happroved
        cases h
        exact ⟨⟨hwaits, hcan, before, happroved⟩, List.mem_cons_self, List.subset_cons_self _ _⟩
      · rw [Prod.mk.injEq] at h
        obtain ⟨hs, hmem, hrest⟩ := ih (Prod.ext rfl h.2)
        exact ⟨hs, List.mem_cons_of_mem e hmem, List.subset_cons_of_subset e hrest⟩
    · obtain ⟨hs, hmem, hrest⟩ := ih h
      exact ⟨hs, List.mem_cons_of_mem e hmem, List.subset_cons_of_subset e hrest⟩

/-- A step that goes on collapses an approved edge of the queue, or of the edges that wait. -/
theorem of_stepBy_eq_onward (h : w.stepBy g = .onward next) :
    ∃ asked s rest, next = w.collapseTo (g.target s) asked s rest ∧
      (s.key ∈ w.waiting ∧ w.mesh.canCollapse s = true ∧ ∃ n, g.approves n w.mesh s = true) ∧
      ∀ e ∈ s :: rest, e ∈ w.queue ∨ e ∈ w.waiting.values := by
  unfold stepBy at h
  split at h
  · rename_i asked s rest hfirst
    cases h
    obtain ⟨hopen, hs, hrest⟩ := of_firstChosen hfirst
    exact ⟨asked, s, rest, rfl, hopen, fun e he =>
      .inl ((List.mem_cons.1 he).elim (· ▸ hs) fun he => hrest he)⟩
  · split at h
    · rename_i s rest hagain
      cases h
      obtain ⟨hopen, hs, hrest⟩ := of_firstChosen hagain
      exact ⟨_, s, rest, rfl, hopen, fun e he =>
        .inr ((List.mem_cons.1 he).elim (· ▸ hs) fun he => hrest he)⟩
    · cases h

theorem of_step_eq_onward (h : w.step approve = .onward next) :
    ∃ asked s rest, next = w.collapse asked s rest ∧
      (s.key ∈ w.waiting ∧ w.mesh.canCollapse s = true ∧ approve w.mesh s = true) ∧
      ∀ e ∈ s :: rest, e ∈ w.queue ∨ e ∈ w.waiting.values := by
  rw [step_eq_stepBy] at h
  obtain ⟨asked, s, rest, hnext, ⟨hs, hcan, _, happroved⟩, hmem⟩ := of_stepBy_eq_onward h
  exact ⟨asked, s, rest, hnext, ⟨hs, hcan, happroved⟩, hmem⟩

theorem of_firstChosen_eq_none {queue : List (Segment K)} {before asked : Nat}
    (h : w.firstChosen g before queue = (asked, none)) :
    ∀ s ∈ queue, s.key ∈ w.waiting → w.mesh.canCollapse s = true →
      ∃ n, g.approves n w.mesh s = false := by
  induction queue generalizing before asked with
  | nil => exact fun s hs => absurd hs List.not_mem_nil
  | cons e queue ih =>
    rw [List.forall_mem_cons]
    unfold firstChosen at h
    split at h
    · split at h
      · cases h
      · rename_i hrefused
        rw [Prod.mk.injEq] at h
        exact ⟨fun _ _ => ⟨before, Bool.not_eq_true _ ▸ hrefused⟩, ih (Prod.ext rfl h.2)⟩
    · rename_i hclosed
      refine ⟨fun hwaits hcan => absurd ?_ hclosed, ih h⟩
      rw [Bool.and_eq_true]
      exact ⟨Std.TreeMap.contains_iff_mem.2 hwaits, hcan⟩

/-- In the last step no edge that waits and can be collapsed is approved. -/
theorem refused_of_stepBy_eq_finished (h : w.stepBy g = .finished done) :
    ∀ s ∈ w.waiting.values, s.key ∈ w.waiting → w.mesh.canCollapse s = true →
      ∃ n, g.approves n w.mesh s = false := by
  unfold stepBy at h
  split at h
  · cases h
  · split at h
    · cases h
    · rename_i hnone
      exact of_firstChosen_eq_none hnone

/-- The last step changes neither the mesh nor the account of the collapses. -/
theorem of_stepBy_eq_finished (h : w.stepBy g = .finished done) :
    done.mesh = w.mesh ∧ done.collapsed = w.collapsed := by
  unfold stepBy at h
  split at h
  · cases h
  · split at h
    · cases h
    · cases h
      exact ⟨rfl, rfl⟩

theorem mesh_of_step_eq_finished (h : w.step approve = .finished done) : done.mesh = w.mesh :=
  (of_stepBy_eq_finished ((step_eq_stepBy approve w).symm.trans h)).1

end Simplifying

/-! ## Edges of triangles -/

theorem Segment.key_between_eq_or (p q : Vec3 K) :
    (between p q).key = ⟨p.key, q.key⟩ ∨ (between p q).key = ⟨q.key, p.key⟩ := by
  unfold between
  split
  · exact .inl rfl
  · exact .inr rfl

theorem Segment.touches_between (p q : Vec3 K) (s : Segment K) :
    (between p q).touches s = (s.hasEnd p.key || s.hasEnd q.key) := by
  unfold touches between
  split
  · rfl
  · exact Bool.or_comm _ _

namespace Triangle

/-- Whether a side of the triangle has the given key. -/
def hasEdge (k : EdgeKey K) (t : Triangle K) : Bool := t.segments.any fun e => e.key = k

variable {s : Segment K} {t : Triangle K} {k : EdgeKey K}

theorem hasEdge_iff : t.hasEdge k = true ↔ ∃ e ∈ t.segments, e.key = k := by
  simp [hasEdge]

theorem mem_sides_iff {K : Type} {t : Triangle K} {e : Vec3 K × Vec3 K} :
    e ∈ t.sides ↔ ∃ place, e = t.following place := by
  constructor
  · simp only [sides, List.mem_cons, List.not_mem_nil, or_false]
    rintro (rfl | rfl | rfl)
    · exact ⟨.third, rfl⟩
    · exact ⟨.first, rfl⟩
    · exact ⟨.second, rfl⟩
  · rintro ⟨place, rfl⟩
    cases place <;> simp [sides, following]

theorem atBoth_of_hasEdge (h : t.hasEdge s.key = true) : t.atBoth s = true := by
  obtain ⟨e, he, hkey⟩ := hasEdge_iff.1 h
  obtain ⟨side, hside, rfl⟩ := List.mem_map.1 he
  have hends : side.1.key ∈ t.keys ∧ side.2.key ∈ t.keys :=
    (mem_corners_of_mem_sides hside).imp List.mem_map_of_mem List.mem_map_of_mem
  rw [atBoth, Bool.and_eq_true, ← mem_keys_iff_hasCorner, ← mem_keys_iff_hasCorner]
  rcases Segment.key_between_eq_or side.1 side.2 with hpq | hpq
  · obtain ⟨hlo, hhi⟩ := (EdgeKey.mk.injEq ..).mp (hkey.symm.trans hpq)
    exact ⟨hlo ▸ hends.1, hhi ▸ hends.2⟩
  · obtain ⟨hlo, hhi⟩ := (EdgeKey.mk.injEq ..).mp (hkey.symm.trans hpq)
    exact ⟨hlo ▸ hends.2, hhi ▸ hends.1⟩

/-- A triangle at an end of an edge with a side away from the ends: only the third corner is there. -/
theorem placeOf_of_away (hend : t.atEnd s = true) {place : Place}
    (hfst : s.hasEnd (t.following place).1.key = false)
    (hsnd : s.hasEnd (t.following place).2.key = false) :
    ((t.placeOf s.lo.key).orElse fun _ => t.placeOf s.hi.key) = some place ∧
      (s.lo.key ≠ s.hi.key → t.atBoth s = false) := by
  simp only [atEnd, hasCorner] at hend
  simp only [Segment.hasEnd, Bool.or_eq_false_iff, decide_eq_false_iff_not] at hfst hsnd
  cases place <;> simp only [following] at hfst hsnd <;>
    simp only [atBoth, hasCorner, placeOf] at hend ⊢ <;> grind

/-- A triangle with a side away from the ends of an edge is at one end at most, and the side stays when
the triangle is pulled to another point. -/
theorem hasEdge_pullTo (p : Vec3 K) (hne : s.lo.key ≠ s.hi.key) (hend : t.atEnd s = true) {e : Segment K}
    (he : e ∈ t.segments) (haway : e.touches s = false) :
    t.atBoth s = false ∧ (t.pullTo p s).hasEdge e.key = true := by
  obtain ⟨side, hside, rfl⟩ := List.mem_map.1 he
  obtain ⟨place, rfl⟩ := mem_sides_iff.1 hside
  rw [Segment.touches_between, Bool.or_eq_false_iff] at haway
  obtain ⟨hplace, hone⟩ := placeOf_of_away hend haway.1 haway.2
  refine ⟨hone hne, hasEdge_iff.2 ⟨_, ?_, rfl⟩⟩
  rw [pullTo, hplace]
  cases place <;> simp [segments, sides, replace, following]

/-- The edges at a new corner are sides of the triangle that is attached there. -/
theorem hasEdge_replace (t : Triangle K) (place : Place) (p : Vec3 K) :
    (t.replace place p).hasEdge (Segment.between p (t.following place).1).key = true ∧
      (t.replace place p).hasEdge (Segment.between p (t.following place).2).key = true := by
  cases place <;>
    simp [hasEdge, segments, sides, replace, following,
      Segment.key_between_comm p]

end Triangle

/-! ## Edges that wait -/

namespace EdgeSet

/-- Whether all entries of a set have a property. -/
def Each (P : EdgeKey K → Segment K → Prop) (set : EdgeSet K) : Prop :=
  ∀ (k : EdgeKey K) (e : Segment K), set[k]? = some e → P k e

namespace Each

variable {P : EdgeKey K → Segment K → Prop} {set : EdgeSet K}

theorem insertAll (h : set.Each P) (es : List (Segment K)) (hes : ∀ e ∈ es, P e.key e) :
    Each P (es.foldl (fun set e => set.insertIfNew e.key e) set) := by
  induction es generalizing set with
  | nil => exact h
  | cons e es ih =>
    obtain ⟨he, hes⟩ := List.forall_mem_cons.1 hes
    refine ih (fun k f hf => ?_) hes
    rw [Std.TreeMap.getElem?_insertIfNew] at hf
    split at hf
    · rename_i hkey
      cases hf
      exact Std.LawfulEqCmp.eq_of_compare hkey.1 ▸ he
    · exact h k f hf

theorem eraseTouching (h : set.Each P) (s : Segment K) (sides : List (Segment K)) :
    Each P (sides.foldl (fun set side => if side.touches s then set.erase side.key else set) set) := by
  induction sides generalizing set with
  | nil => exact h
  | cons side sides ih =>
    refine ih ?_
    dsimp only
    split
    · intro k e he
      rw [Std.TreeMap.getElem?_erase] at he
      split at he
      · cases he
      · exact h k e he
    · exact h

theorem withoutTouching (h : set.Each P) (s : Segment K) (t : Triangle K) :
    (set.withoutTouching s t).Each P :=
  h.eraseTouching s t.segments

end Each

theorem values_eq_map_toList (set : EdgeSet K) : set.values = set.toList.map Prod.snd := by
  show set.foldr (fun _ v vs => v :: vs) [] = _
  rw [Std.TreeMap.foldr_eq_foldr_toList, List.map_eq_foldr]

theorem mem_values_iff {set : EdgeSet K} {e : Segment K} :
    e ∈ set.values ↔ ∃ k : EdgeKey K, set[k]? = some e := by
  rw [values_eq_map_toList, List.mem_map]
  constructor
  · rintro ⟨⟨k, e⟩, he, rfl⟩
    exact ⟨k, Std.TreeMap.mem_toList_iff_getElem?_eq_some.1 he⟩
  · rintro ⟨k, he⟩
    exact ⟨(k, e), Std.TreeMap.mem_toList_iff_getElem?_eq_some.2 he, rfl⟩

/-- Whether all edges of a set are edges of triangles. -/
def Attached (set : EdgeSet K) (ts : List (Triangle K)) : Prop :=
  ∀ k ∈ set, ∃ t ∈ ts, t.hasEdge k = true

variable {set : EdgeSet K} {k : EdgeKey K}

theorem mem_insertAll {es : List (Segment K)} :
    k ∈ es.foldl (fun set e => set.insertIfNew e.key e) set ↔ k ∈ set ∨ ∃ e ∈ es, e.key = k := by
  induction es generalizing set with
  | nil => simp
  | cons e es ih =>
    rw [List.foldl_cons, ih, Std.TreeMap.mem_insertIfNew, Std.LawfulEqCmp.compare_eq_iff_eq]
    simp only [List.exists_mem_cons_iff]
    tauto

theorem mem_eraseTouching {s : Segment K} {sides : List (Segment K)} :
    k ∈ sides.foldl (fun set e => if e.touches s then set.erase e.key else set) set ↔
      k ∈ set ∧ ∀ e ∈ sides, e.touches s = true → e.key ≠ k := by
  induction sides generalizing set with
  | nil => simp
  | cons e sides ih =>
    rw [List.foldl_cons, ih, List.forall_mem_cons]
    split
    · rename_i htouches
      simp only [Std.TreeMap.mem_erase, ne_eq, Std.LawfulEqCmp.compare_eq_iff_eq, htouches,
        true_implies]
      tauto
    · rename_i haway
      simp only [haway, Bool.false_eq_true, false_implies, true_and]

theorem mem_withoutTouching {s : Segment K} {t : Triangle K} :
    k ∈ set.withoutTouching s t ↔ k ∈ set ∧ ∀ e ∈ t.segments, e.touches s = true → e.key ≠ k :=
  mem_eraseTouching

end EdgeSet

namespace Collapsing

variable {p : Vec3 K} {s : Segment K} {c : Collapsing K} {id : TriangleId} {t : Triangle K} {both : Bool}

theorem waiting_visitTo_true (ht : c.mesh.get? id = some t) :
    (c.visitTo p s id true).waiting = c.waiting.withoutTouching s t := by
  obtain ⟨rest, hrem, -⟩ := Mesh.exists_remove? ht
  unfold visitTo
  simp only [hrem, if_true]

theorem waiting_visitTo_false (ht : c.mesh.get? id = some t) {place : Place}
    (hplace : ((t.placeOf s.lo.key).orElse fun _ => t.placeOf s.hi.key) = some place) :
    (c.visitTo p s id false).waiting =
      [Segment.between p (t.following place).1, Segment.between p (t.following place).2].foldl
        (fun set side => set.insertIfNew side.key side) (c.waiting.withoutTouching s t) := by
  obtain ⟨rest, hrem, -⟩ := Mesh.exists_remove? ht
  unfold visitTo
  simp only [hrem, Bool.false_eq_true, if_false, hplace, attachTo]

theorem mem_waiting_visitTo (ht : c.mesh.get? id = some t) (hend : t.atEnd s = true) {k : EdgeKey K}
    (hk : k ∈ (c.visitTo p s id both).waiting) :
    (k ∈ c.waiting ∧ ∀ e ∈ t.segments, e.touches s = true → e.key ≠ k) ∨
      both = false ∧ (t.pullTo p s).hasEdge k = true := by
  cases both with
  | true =>
    rw [waiting_visitTo_true ht] at hk
    exact .inl (EdgeSet.mem_withoutTouching.1 hk)
  | false =>
    obtain ⟨place, hplace⟩ := Triangle.exists_place_of_atEnd hend
    rw [waiting_visitTo_false ht hplace, EdgeSet.mem_insertAll] at hk
    rcases hk with hk | ⟨e, he, rfl⟩
    · exact .inl (EdgeSet.mem_withoutTouching.1 hk)
    · obtain ⟨hfst, hsnd⟩ := t.hasEdge_replace place p
      rw [Triangle.pullTo, hplace]
      simp only [List.mem_cons, List.not_mem_nil, or_false] at he
      rcases he with rfl | rfl
      · exact .inr ⟨rfl, hfst⟩
      · exact .inr ⟨rfl, hsnd⟩

/-- **A visit keeps the edges that wait attached.** -/
theorem attached_visitTo (hne : s.lo.key ≠ s.hi.key) (ht : c.mesh.get? id = some t)
    (hend : t.atEnd s = true) (hboth : t.atBoth s = both)
    (h : c.waiting.Attached c.mesh.triangles) :
    (c.visitTo p s id both).waiting.Attached (c.visitTo p s id both).mesh.triangles := by
  intro k hk
  obtain ⟨hcount, -⟩ := visitTo_spec (p := p) ht hend both (Triangle.hasEdge k)
  have hin : (if t.hasEdge k = true then 1 else 0) ≤ c.mesh.triangles.countP (Triangle.hasEdge k) := by
    split
    · exact List.countP_pos_iff.2 ⟨t, Mesh.mem_triangles_iff.2 ⟨id, ht⟩, ‹_›⟩
    · exact Nat.zero_le _
  rw [← List.countP_pos_iff]
  rcases mem_waiting_visitTo ht hend hk with ⟨hwaits, haway⟩ | ⟨rfl, hback⟩
  · cases hold : t.hasEdge k with
    | true =>
      -- the side with this key does not touch the edge, so it comes back
      obtain ⟨e, he, rfl⟩ := Triangle.hasEdge_iff.1 hold
      have haway : e.touches s = false := by
        rw [← Bool.not_eq_true]
        exact fun htouches => haway e he htouches rfl
      obtain ⟨hone, hback⟩ := Triangle.hasEdge_pullTo p hne hend he haway
      simp only [← hboth, hone, hback, Bool.not_false, Bool.and_self, if_true] at hcount hin ⊢
      omega
    | false =>
      have hpos : 0 < c.mesh.triangles.countP (Triangle.hasEdge k) :=
        List.countP_pos_iff.2 (h k hwaits)
      simp only [hold, Bool.false_eq_true, if_false] at hcount
      omega
  · simp only [hback, Bool.not_false, Bool.and_self, if_true] at hcount
    omega

end Collapsing

namespace Mesh

variable {m : Mesh K} {s : Segment K} {waiting : EdgeSet K}

theorem mem_keys_edges_iff {k : EdgeKey K} :
    k ∈ m.edges.map Segment.key ↔ ∃ t ∈ m.triangles, t.hasEdge k = true := by
  rw [List.mem_map]
  constructor
  · rintro ⟨e, he, rfl⟩
    obtain ⟨t, ht, he⟩ := exists_of_mem_edges he
    exact ⟨t, ht, Triangle.hasEdge_iff.2 ⟨e, he, rfl⟩⟩
  · rintro ⟨t, ht, hedge⟩
    obtain ⟨e, he, rfl⟩ := Triangle.hasEdge_iff.1 hedge
    exact exists_mem_edges ht he

/-- Edges that wait are attached when they are edges of the mesh. -/
theorem attached_iff :
    waiting.Attached m.triangles ↔ ∀ k ∈ waiting, k ∈ m.edges.map Segment.key :=
  forall₂_congr fun _ _ => mem_keys_edges_iff.symm

namespace Coherent

/-- **Each moment of a collapse** keeps the edges that wait attached, wherever the ends are moved. -/
theorem attached_of_prefix (h : m.Coherent) (hne : s.lo.key ≠ s.hi.key)
    (hwaiting : waiting.Attached m.triangles) (p : Vec3 K) {visited : List (TriangleId × Bool)}
    (hvisited : visited <+: m.visits s) :
    let c : Collapsing K := visited.foldl (fun c e => c.visitTo p s e.1 e.2) ⟨m, waiting, []⟩
    c.waiting.Attached c.mesh.triangles := by
  refine Collapsing.foldl_induction (c := ⟨m, waiting, []⟩)
    (C := fun c => c.waiting.Attached c.mesh.triangles)
    (Q := fun t both => t.atEnd s = true ∧ t.atBoth s = both) visited
    ((h.nodup_visits s).sublist (hvisited.sublist.map Prod.fst)) (fun e he => ?_)
    (fun c id both t ht hQ hc => Collapsing.attached_visitTo hne ht hQ.1 hQ.2 hc) hwaiting
  obtain ⟨t, ht, hend, hboth⟩ := h.mem_visits.1 (hvisited.subset he)
  exact ⟨t, ht, hend, hend, hboth⟩

theorem attached_collapseTo (h : m.Coherent) (hne : s.lo.key ≠ s.hi.key)
    (hwaiting : waiting.Attached m.triangles) (p : Vec3 K) :
    (m.collapseTo p s waiting).waiting.Attached (m.collapseTo p s waiting).mesh.triangles :=
  h.attached_of_prefix hne hwaiting p (List.prefix_refl _)

/-- A collapse takes the triangles at both ends away. -/
theorem triangleCount_collapseTo (h : m.Coherent) (p : Vec3 K) (s : Segment K)
    (waiting : EdgeSet K) :
    (m.collapseTo p s waiting).mesh.triangleCount + m.triangles.countP (Triangle.atBoth s) =
      m.triangleCount := by
  have hcount := h.countP_collapseTo p s waiting fun _ => true
  rw [List.countP_true, ← triangleCount_eq_length] at hcount
  rw [hcount, triangleCount_eq_length]
  have hone (t : Triangle K) : (if !t.atEnd s && true then 1 else 0) +
      (if t.atEnd s && (!t.atBoth s && true) then 1 else 0) + (if t.atBoth s then 1 else 0) = 1 := by
    cases hlo : t.hasCorner s.lo.key <;> cases hhi : t.hasCorner s.hi.key <;>
      simp [Triangle.atEnd, Triangle.atBoth, hlo, hhi]
  induction m.triangles with
  | nil => rfl
  | cons t ts ih =>
    have ht := hone t
    simp only [List.countP_cons, List.length_cons]
    omega

end Coherent

end Mesh

/-! ## Runs -/

namespace Simplifying

variable {approve : Approval K} {w done : Simplifying K} {s : Segment K}

/-- Whether all edges that wait are edges of the mesh. -/
structure Attached (w : Simplifying K) : Prop where
  coherent : w.mesh.Coherent
  waiting : w.waiting.Attached w.mesh.triangles

theorem triangles_start (m : Mesh K) : (start m).mesh.triangles = m.triangles :=
  Mesh.triangles_ofTriangles m.triangles

theorem triangleCount_start (m : Mesh K) : (start m).mesh.triangleCount = m.triangleCount := by
  rw [Mesh.triangleCount_eq_length, triangles_start, Mesh.triangleCount_eq_length]

theorem attached_start (m : Mesh K) : (start m).Attached where
  coherent := (Mesh.coherent_ofTriangles m.triangles).indexed
  waiting := by
    intro k hk
    rcases EdgeSet.mem_insertAll.1 hk with hk | ⟨e, he, rfl⟩
    · simp at hk
    · obtain ⟨t, ht, he⟩ := Mesh.exists_of_mem_edges he
      exact ⟨t, (triangles_start m).symm ▸ ht, Triangle.hasEdge_iff.2 ⟨e, he, rfl⟩⟩

/-- At the start all edges wait, each as it is in the mesh. -/
theorem mem_values_start {m : Mesh K} (hs : s ∈ m.edges) :
    s.key ∈ (start m).waiting ∧ s ∈ (start m).waiting.values := by
  have hwaits : s.key ∈ (start m).waiting := EdgeSet.mem_insertAll.2 (.inr ⟨s, hs, rfl⟩)
  have heach : (start m).waiting.Each fun k e => e ∈ m.edges ∧ e.key = k :=
    EdgeSet.Each.insertAll (fun k e he => by simp at he) m.edges fun e he => ⟨he, rfl⟩
  refine ⟨hwaits, EdgeSet.mem_values_iff.2 ⟨s.key, ?_⟩⟩
  rw [Std.TreeMap.mem_iff_isSome_getElem?, Option.isSome_iff_exists] at hwaits
  obtain ⟨e, he⟩ := hwaits
  obtain ⟨hmem, hkey⟩ := heach s.key e he
  have hsame : e = s := List.inj_on_of_nodup_map (nodup_map_distinctOn _ _) hmem hs hkey
  rw [he, hsame]

theorem Attached.collapseTo (h : w.Attached) (hne : s.lo.key ≠ s.hi.key) (p : Vec3 K) (asked : Nat)
    (rest : List (Segment K)) : (w.collapseTo p asked s rest).Attached :=
  ⟨h.coherent.collapseTo p s w.waiting, h.coherent.attached_collapseTo hne h.waiting p⟩

theorem Attached.collapse (h : w.Attached) (hne : s.lo.key ≠ s.hi.key) (asked : Nat)
    (rest : List (Segment K)) : (w.collapse asked s rest).Attached :=
  h.collapseTo hne s.mid asked rest

/-- An edge that waits belongs to a triangle. -/
theorem Attached.exists_atBoth (h : w.Attached) (hs : s.key ∈ w.waiting) :
    ∃ t ∈ w.mesh.triangles, t.hasEdge s.key = true ∧ t.atBoth s = true := by
  obtain ⟨t, ht, hedge⟩ := h.waiting s.key hs
  exact ⟨t, ht, hedge, Triangle.atBoth_of_hasEdge hedge⟩

/-- A collapse of an edge that waits takes at least one triangle away. -/
theorem Attached.triangleCount_collapseTo (h : w.Attached) (hs : s.key ∈ w.waiting) (p : Vec3 K)
    (asked : Nat) (rest : List (Segment K)) :
    0 < w.mesh.triangles.countP (Triangle.atBoth s) ∧
      (w.collapseTo p asked s rest).mesh.triangleCount +
        w.mesh.triangles.countP (Triangle.atBoth s) = w.mesh.triangleCount := by
  obtain ⟨t, ht, -, hboth⟩ := h.exists_atBoth hs
  exact ⟨List.countP_pos_iff.2 ⟨t, ht, hboth⟩, h.coherent.triangleCount_collapseTo p s w.waiting⟩

theorem Attached.triangleCount_collapse_lt (h : w.Attached) (hs : s.key ∈ w.waiting) (asked : Nat)
    (rest : List (Segment K)) :
    (w.collapse asked s rest).mesh.triangleCount < w.mesh.triangleCount := by
  obtain ⟨hpos, hcount⟩ := h.triangleCount_collapseTo hs s.mid asked rest
  rw [collapse_eq_collapseTo]
  omega

/-- **A run that shrinks the mesh with each step ends**, after any number of steps above that of the
triangles, from a state with everything that the steps keep. By induction on that number. -/
theorem exists_runBy (g : Guide K) (holds : Simplifying K → Prop)
    (hstep : ∀ (w : Simplifying K) (asked : Nat) (s : Segment K) (rest : List (Segment K)),
      holds w → s.key ∈ w.waiting → w.mesh.canCollapse s = true →
      (∃ n, g.approves n w.mesh s = true) →
      holds (w.collapseTo (g.target s) asked s rest) ∧
        (w.collapseTo (g.target s) asked s rest).mesh.triangleCount < w.mesh.triangleCount)
    (hw : holds w) : ∃ done v, holds v ∧ v.stepBy g = .finished done ∧
      ∀ steps, w.mesh.triangleCount < steps → w.runBy g steps = some done := by
  induction hcount : w.mesh.triangleCount using Nat.strong_induction_on generalizing w with
  | _ count ih =>
    subst hcount
    cases hnext : w.stepBy g with
    | finished done =>
      refine ⟨done, w, hw, hnext, fun steps hsteps => ?_⟩
      obtain ⟨steps, rfl⟩ := Nat.exists_eq_succ_of_ne_zero (Nat.ne_zero_of_lt hsteps)
      rw [runBy, hnext]
    | onward next =>
      obtain ⟨asked, s, rest, rfl, ⟨hs, hcan, happroved⟩, -⟩ := of_stepBy_eq_onward hnext
      obtain ⟨hholds, hlt⟩ := hstep w asked s rest hw hs hcan happroved
      obtain ⟨done, v, hv, hlast, hrun⟩ := ih _ hlt hholds rfl
      refine ⟨done, v, hv, hlast, fun steps hsteps => ?_⟩
      obtain ⟨steps, rfl⟩ := Nat.exists_eq_succ_of_ne_zero (Nat.ne_zero_of_lt hsteps)
      rw [runBy, hnext]
      exact hrun steps (by omega)

/-- A run adds to the account of the collapses. -/
theorem collapsed_prefix_run {steps : Nat} (h : w.run approve steps = some done) :
    w.collapsed <+: done.collapsed := by
  induction steps generalizing w with
  | zero => cases h
  | succ steps ih =>
    rw [run] at h
    cases hnext : w.step approve with
    | finished last =>
      rw [hnext] at h
      cases h
      have hsame := (of_stepBy_eq_finished ((step_eq_stepBy approve w).symm.trans hnext)).2
      exact ⟨[], (List.append_nil _).trans hsame.symm⟩
    | onward next =>
      rw [hnext] at h
      obtain ⟨asked, s, rest, rfl, -⟩ := of_step_eq_onward hnext
      exact (List.prefix_append w.collapsed [s]).trans (ih h)

/-- A run with midpoints returns the mesh of a state with everything that the steps keep. -/
theorem exists_run (approve : Approval K) (holds : Simplifying K → Prop)
    (hstep : ∀ (w : Simplifying K) (asked : Nat) (s : Segment K) (rest : List (Segment K)),
      holds w → s.key ∈ w.waiting → w.mesh.canCollapse s = true → approve w.mesh s = true →
      holds (w.collapse asked s rest) ∧
        (w.collapse asked s rest).mesh.triangleCount < w.mesh.triangleCount)
    {steps : Nat} (hw : holds w) (hsteps : w.mesh.triangleCount < steps) :
    ∃ done v, w.run approve steps = some done ∧ holds v ∧ done.mesh = v.mesh := by
  obtain ⟨done, v, hv, hlast, hrun⟩ := exists_runBy (.ofApproval approve) holds
    (fun w asked s rest hw hs hcan ⟨_, happroved⟩ => hstep w asked s rest hw hs hcan happroved) hw
  exact ⟨done, v, (run_eq_runBy approve steps w).trans (hrun steps hsteps), hv,
    (of_stepBy_eq_finished hlast).1⟩

end Simplifying

/-- A run has more steps than triangles. -/
theorem Mesh.triangleCount_start_lt_stepLimit (m : Mesh K) :
    (Simplifying.start m).mesh.triangleCount < m.stepLimit := by
  rw [Simplifying.triangleCount_start, stepLimit]
  calc m.triangleCount < 3 * m.triangleCount + 3 := by omega
    _ ≤ (3 * m.triangleCount + 3) * (3 * m.triangleCount + 3) :=
      Nat.le_mul_of_pos_right _ (by omega)
    _ ≤ (3 * m.triangleCount + 3) * (3 * m.triangleCount + 3) * (3 * m.triangleCount + 3) :=
      Nat.le_mul_of_pos_right _ (by omega)

/-- **A simplification collapses an edge** if there is one to collapse: an edge of the mesh that can be
collapsed and is approved at the start. -/
theorem Mesh.collapsed_ne_nil {approve : Approval K} {m : Mesh K} {done : Simplifying K}
    {s : Segment K} (hs : s ∈ m.edges) (hcan : (Simplifying.start m).mesh.canCollapse s = true)
    (happroved : approve (Simplifying.start m).mesh s = true)
    (hrun : m.simplify approve = some done) : done.collapsed ≠ [] := by
  obtain ⟨steps, hsteps⟩ := Nat.exists_eq_succ_of_ne_zero
    (Nat.ne_zero_of_lt m.triangleCount_start_lt_stepLimit)
  rw [simplify, hsteps, Simplifying.run] at hrun
  cases hnext : (Simplifying.start m).step approve with
  | finished last =>
    rw [Simplifying.step_eq_stepBy] at hnext
    obtain ⟨hwaits, hvalue⟩ := Simplifying.mem_values_start hs
    obtain ⟨_, hrefused⟩ := Simplifying.refused_of_stepBy_eq_finished hnext s hvalue hwaits hcan
    exact Bool.noConfusion (happroved.symm.trans hrefused)
  | onward next =>
    rw [hnext] at hrun
    obtain ⟨asked, e, rest, rfl, -⟩ := Simplifying.of_step_eq_onward hnext
    have hextends := Simplifying.collapsed_prefix_run hrun
    exact List.ne_nil_of_mem (hextends.subset (List.mem_append_right [] (List.mem_singleton_self e)))

end Isomesh
