import Mathlib
import Isomesh.Mesh.Relocate

/-!
# A mesh passed through an action

Passing a mesh through an action asks at every corner, but remembers the answers by the keys of the
points. So the action runs on the distinct vertices in their order, on each of them once, and the corners
go where the answers say. This holds for every action that keeps the laws of a monad, whatever its state
or its effects are.

* `run_mapM_askOnce`: a walk over some points, from the answers that are known before.
* `Mesh.mapM_eq`: the mesh as a whole.
-/

set_option autoImplicit false

namespace Isomesh

/-! ## Triangles, corner by corner -/

/-- Takes points three at a time. -/
def groupCorners {K : Type} : List (Vec3 K) → List (Triangle K)
  | a :: b :: c :: rest => ⟨a, b, c⟩ :: groupCorners rest
  | _ => []

theorem groupCorners_map {K : Type} (f : Vec3 K → Vec3 K) (ts : List (Triangle K)) :
    groupCorners ((ts.flatMap Triangle.corners).map f) = ts.map (·.map f) := by
  induction ts with
  | nil => rfl
  | cons t ts ih => exact congrArg (t.map f :: ·) ih

/-- Going through triangles is going through their corners. -/
theorem mapM_triangles_eq {K : Type} {m : Type → Type} [Monad m] [LawfulMonad m]
    (f : Vec3 K → m (Vec3 K)) (ts : List (Triangle K)) :
    ts.mapM (Triangle.mapM f) = groupCorners <$> (ts.flatMap Triangle.corners).mapM f := by
  induction ts with
  | nil => simp [groupCorners]
  | cons t ts ih =>
    simp [List.mapM_cons, ih, Triangle.mapM, Triangle.corners, groupCorners]

/-! ## Answers that are remembered -/

variable {K : Type} [Scalar K] {m : Type → Type} [Monad m] [LawfulMonad m]

namespace Mesh

theorem run_askOnce (f : Vec3 K → m (Vec3 K)) (p : Vec3 K) (known : Answers K) :
    (askOnce f p).run known = match known[p.key]? with
      | some q => pure (q, known)
      | none => (fun q => (q, known.insert p.key q)) <$> f p := by
  unfold askOnce
  cases h : known[p.key]? <;> simp [h]

/-- The answers to some questions, beside those that are known before. -/
def answered (known : Answers K) (asked : List (Vec3 K)) (qs : List (Vec3 K)) : Answers K :=
  known.insertMany ((asked.map Vec3.key).zip qs)

theorem answered_cons (known : Answers K) (p q : Vec3 K) (asked qs : List (Vec3 K)) :
    answered known (p :: asked) (q :: qs) = answered (known.insert p.key q) asked qs :=
  Std.TreeMap.insertMany_cons

/-- The answer for a key that is not asked for again stays. -/
theorem getElem?_answered (known : Answers K) {seen : Std.TreeSet (VertexKey K)} {k : VertexKey K}
    (h : k ∈ seen) (ps qs : List (Vec3 K)) :
    (answered known (distinctOnFrom Vec3.key seen ps) qs)[k]? = known[k]? := by
  refine Std.TreeMap.getElem?_insertMany_list_of_contains_eq_false ?_
  rw [← Bool.not_eq_true, List.contains_iff_mem]
  intro hmem
  obtain ⟨entry, hentry, rfl⟩ := List.mem_map.1 hmem
  obtain ⟨v, hv, hkey⟩ := List.mem_map.1 (List.of_mem_zip hentry).1
  exact key_not_mem_of_mem_distinctOnFrom hv (hkey.symm ▸ h)

/-- **A walk over some points** asks for those whose keys are new, and answers everywhere from what is
known at the end. -/
theorem run_mapM_askOnce (f : Vec3 K → m (Vec3 K)) (ps : List (Vec3 K))
    (seen : Std.TreeSet (VertexKey K)) (known : Answers K) (hseen : ∀ k, k ∈ seen ↔ k ∈ known) :
    (ps.mapM (askOnce f)).run known =
      (fun qs =>
        let answers := answered known (distinctOnFrom Vec3.key seen ps) qs
        (ps.map fun p => (answers[p.key]?).getD p, answers)) <$>
      (distinctOnFrom Vec3.key seen ps).mapM f := by
  induction ps generalizing seen known with
  | nil => simp [distinctOnFrom, answered]
  | cons p ps ih =>
    rw [List.mapM_cons, StateT.run_bind, run_askOnce, distinctOnFrom]
    cases hknown : known[p.key]? with
    | some q =>
      have hmem : p.key ∈ seen := by
        rw [hseen, Std.TreeMap.mem_iff_isSome_getElem?, hknown]
        rfl
      -- the answer for `p` is still known at the end
      have hkept := getElem?_answered known hmem ps
      rw [if_pos (Std.TreeSet.contains_iff_mem.2 hmem)]
      simp [ih seen known hseen, hkept, hknown]
    | none =>
      have hmem : p.key ∉ seen := by
        rw [hseen, Std.TreeMap.mem_iff_isSome_getElem?, hknown]
        exact Bool.false_ne_true
      have hseen' (q : Vec3 K) (k : VertexKey K) : k ∈ seen.insert p.key ↔ k ∈ known.insert p.key q := by
        rw [Std.TreeSet.mem_insert, Std.TreeMap.mem_insert, hseen]
      have hkept (q : Vec3 K) := getElem?_answered (known.insert p.key q)
        (mem_treeSet_insert.2 (.inl rfl) : p.key ∈ seen.insert p.key) ps
      rw [if_neg (mt Std.TreeSet.contains_iff_mem.1 hmem), List.mapM_cons]
      simp [ih _ _ (hseen' _), answered_cons, hkept]

/-- **Passing a mesh through an action** runs it on the vertices in their order, on each of them once,
and moves every corner to the answer for its key. -/
theorem mapM_eq (mesh : Mesh K) (f : Vec3 K → m (Vec3 K)) :
    mesh.mapM f = (fun qs => mesh.relocate fun k => (answered ∅ mesh.vertices qs)[k]?) <$>
      mesh.vertices.mapM f := by
  unfold Mesh.mapM
  rw [mapM_triangles_eq]
  simp [StateT.run'_eq, run_mapM_askOnce f _ ∅ ∅ (by simp), groupCorners_map, relocate, vertices,
    distinctOn]

end Mesh

end Isomesh
