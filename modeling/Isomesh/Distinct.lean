import Std.Data.TreeSet

/-!
# First members by key

`distinctOn` keeps the first of all members of a list that have the same key. It gives the vertices
and edges of a surface in the order of their first appearance.

* `distinctOn_sublist`: the order of the list stays.
* `nodup_map_distinctOn`: no key occurs twice.
* `exists_mem_distinctOn`: no key is lost.
* `distinctOn_map`: a function that keeps keys apart keeps the order.

Models the set of keys seen so far in `vertices` and `segments` of a mesh.
-/

set_option autoImplicit false

namespace Isomesh

variable {α κ : Type} [Ord κ]

/-- The members of a list whose key has not been seen before. -/
def distinctOnFrom (key : α → κ) (seen : Std.TreeSet κ) : List α → List α
  | [] => []
  | a :: as =>
    if seen.contains (key a) then distinctOnFrom key seen as
    else a :: distinctOnFrom key (seen.insert (key a)) as

/-- The first member of a list for each key, in the order of the list. -/
def distinctOn (key : α → κ) (as : List α) : List α := distinctOnFrom key ∅ as

theorem distinctOnFrom_sublist (key : α → κ) (seen : Std.TreeSet κ) (as : List α) :
    (distinctOnFrom key seen as).Sublist as := by
  induction as generalizing seen with
  | nil => exact .slnil
  | cons a as ih =>
    rw [distinctOnFrom]
    split
    · exact (ih seen).cons a
    · exact (ih _).cons_cons a

theorem distinctOn_sublist (key : α → κ) (as : List α) : (distinctOn key as).Sublist as :=
  distinctOnFrom_sublist key ∅ as

variable [Std.TransOrd κ] [Std.LawfulEqOrd κ]

theorem mem_treeSet_insert {seen : Std.TreeSet κ} {k l : κ} :
    l ∈ seen.insert k ↔ k = l ∨ l ∈ seen := by
  rw [Std.TreeSet.mem_insert, Std.LawfulEqCmp.compare_eq_iff_eq]

theorem key_not_mem_of_mem_distinctOnFrom {key : α → κ} {seen : Std.TreeSet κ} {as : List α} {b : α}
    (h : b ∈ distinctOnFrom key seen as) : key b ∉ seen := by
  induction as generalizing seen with
  | nil => simp [distinctOnFrom] at h
  | cons a as ih =>
    rw [distinctOnFrom] at h
    split at h
    · exact ih h
    · rename_i ha
      rcases List.mem_cons.1 h with rfl | hb
      · simpa using ha
      · exact fun hm => ih hb (mem_treeSet_insert.2 (.inr hm))

theorem nodup_map_distinctOnFrom (key : α → κ) (seen : Std.TreeSet κ) (as : List α) :
    ((distinctOnFrom key seen as).map key).Nodup := by
  induction as generalizing seen with
  | nil => simp [distinctOnFrom]
  | cons a as ih =>
    rw [distinctOnFrom]
    split
    · exact ih seen
    · rw [List.map_cons, List.nodup_cons]
      refine ⟨fun hm => ?_, ih _⟩
      obtain ⟨b, hb, hk⟩ := List.mem_map.1 hm
      exact key_not_mem_of_mem_distinctOnFrom hb (mem_treeSet_insert.2 (.inl hk.symm))

theorem nodup_map_distinctOn (key : α → κ) (as : List α) : ((distinctOn key as).map key).Nodup :=
  nodup_map_distinctOnFrom key ∅ as

omit [Std.TransOrd κ] in
/-- Keys that occur once each can be told apart by comparing them. -/
theorem pairwise_compare_ne_eq {β : Type} {es : List (κ × β)} (h : (es.map Prod.fst).Nodup) :
    es.Pairwise fun a b => ¬compare a.1 b.1 = .eq :=
  (List.pairwise_map.1 h).imp fun hne heq => hne (Std.LawfulEqCmp.eq_of_compare heq)

theorem exists_mem_distinctOnFrom {key : α → κ} {seen : Std.TreeSet κ} {as : List α} {a : α}
    (h : a ∈ as) (hs : key a ∉ seen) : ∃ b ∈ distinctOnFrom key seen as, key b = key a := by
  induction as generalizing seen with
  | nil => simp at h
  | cons c as ih =>
    rw [distinctOnFrom]
    split
    · rename_i hc
      rcases List.mem_cons.1 h with rfl | ha
      · exact absurd (by simpa using hc) hs
      · exact ih ha hs
    · by_cases hk : key c = key a
      · exact ⟨c, List.mem_cons_self, hk⟩
      · rcases List.mem_cons.1 h with rfl | ha
        · exact absurd rfl hk
        · obtain ⟨b, hb, he⟩ := @ih (seen.insert (key c)) ha (by
            rw [mem_treeSet_insert]
            exact fun ho => ho.elim hk hs)
          exact ⟨b, List.mem_cons_of_mem _ hb, he⟩

theorem exists_mem_distinctOn {key : α → κ} {as : List α} {a : α} (h : a ∈ as) :
    ∃ b ∈ distinctOn key as, key b = key a :=
  exists_mem_distinctOnFrom h (by simp)

/-- A function under which keys agree just where they did before takes first members to first members. -/
theorem distinctOnFrom_map {key : α → κ} {f : α → α} {as : List α}
    (hf : ∀ a ∈ as, ∀ b ∈ as, key (f a) = key (f b) ↔ key a = key b) {seen moved : Std.TreeSet κ}
    (hseen : ∀ a ∈ as, key (f a) ∈ moved ↔ key a ∈ seen) :
    distinctOnFrom key moved (as.map f) = (distinctOnFrom key seen as).map f := by
  induction as generalizing seen moved with
  | nil => rfl
  | cons a as ih =>
    obtain ⟨ha, has⟩ := List.forall_mem_cons.1 hseen
    have hrest : ∀ b ∈ as, ∀ c ∈ as, key (f b) = key (f c) ↔ key b = key c := fun b hb c hc =>
      hf b (List.mem_cons_of_mem a hb) c (List.mem_cons_of_mem a hc)
    rw [List.map_cons, distinctOnFrom, distinctOnFrom]
    simp only [Std.TreeSet.contains_iff_mem, ha]
    split
    · exact ih hrest has
    · rw [List.map_cons, ih hrest fun b hb => ?_]
      rw [mem_treeSet_insert, mem_treeSet_insert, has b hb,
        hf a List.mem_cons_self b (List.mem_cons_of_mem a hb)]

theorem distinctOn_map {key : α → κ} {f : α → α} {as : List α}
    (hf : ∀ a ∈ as, ∀ b ∈ as, key (f a) = key (f b) ↔ key a = key b) :
    distinctOn key (as.map f) = (distinctOn key as).map f :=
  distinctOnFrom_map hf fun _ _ => by simp

/-- Without a key function the first members are the members, each once. -/
theorem mem_distinctOn_id {ks : List κ} {k : κ} : k ∈ distinctOn id ks ↔ k ∈ ks := by
  constructor
  · exact fun h => (distinctOn_sublist id ks).subset h
  · intro h
    have found : ∃ b ∈ distinctOn id ks, id b = id k := exists_mem_distinctOn h
    obtain ⟨b, hb, he⟩ := found
    have hk : b = k := he
    exact hk ▸ hb

theorem nodup_distinctOn_id (ks : List κ) : (distinctOn id ks).Nodup := by
  simpa using nodup_map_distinctOn id ks

end Isomesh
