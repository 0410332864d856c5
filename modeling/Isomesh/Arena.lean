/-!
# Arenas

An arena stores values under identifiers. It keeps them in slots: a new value takes the slot that was
freed last, or a new one if none is free. An identifier names the slot and carries a serial number
that is given out once, so the identifier of a removed value never names a later one. Values are
listed in the order of their slots.

* `get?_insert_fst`, `get?_insert_self`, `get?_insert_of_ne`: an insertion adds a value under an
  identifier that had none and keeps all others.
* `get?_remove?_self`, `get?_remove?_of_ne`: a removal takes away one value.
* `mem_toList`, `size_eq_length_values`: the list has the values with their identifiers.

Models the slot map in which a mesh keeps its triangles, with its `insert`, `get`, `remove`, `len` and the
order of its iteration.
-/

set_option autoImplicit false

namespace Isomesh

/-- The name of a value in an arena. -/
structure Arena.Id where
  slot : Nat
  serial : Nat
  deriving DecidableEq, Repr

/-- Values under identifiers. -/
structure Arena (α : Type) where
  slots : Array (Option (Nat × α))
  /-- The freed slots, the latest first. -/
  free : List Nat
  /-- The next serial number. -/
  next : Nat
  free_vacant : ∀ s ∈ free, slots[s]? = some none
  free_nodup : free.Nodup
  serial_lt : ∀ (slot serial : Nat) (v : α), slots[slot]? = some (some (serial, v)) → serial < next

namespace Arena

variable {α : Type}

/-- The arena without values. -/
def empty : Arena α := ⟨#[], [], 0, by simp, by simp, by simp⟩

/-- The value of an identifier, if it is still there. -/
def get? (a : Arena α) (id : Id) : Option α :=
  match a.slots[id.slot]? with
  | some (some (serial, v)) => if serial = id.serial then some v else none
  | _ => none

theorem get?_eq_some_iff {a : Arena α} {id : Id} {v : α} :
    a.get? id = some v ↔ a.slots[id.slot]? = some (some (id.serial, v)) := by
  unfold get?
  split <;> grind

/-- Stores a value under a new identifier. -/
def insert (a : Arena α) (v : α) : Id × Arena α :=
  match hf : a.free with
  | slot :: free =>
    (⟨slot, a.next⟩,
      { slots := a.slots.setIfInBounds slot (some (a.next, v))
        free := free
        next := a.next + 1
        free_vacant := by
          have hv := a.free_vacant
          have hn := a.free_nodup
          rw [hf] at hv hn
          grind
        free_nodup := by
          have hn := a.free_nodup
          rw [hf] at hn
          grind
        serial_lt := by
          have hl := a.serial_lt
          grind })
  | [] =>
    (⟨a.slots.size, a.next⟩,
      { slots := a.slots.push (some (a.next, v))
        free := []
        next := a.next + 1
        free_vacant := by simp
        free_nodup := by simp
        serial_lt := by
          have hl := a.serial_lt
          grind })

/-! What holds of the slots once the value of an identifier is gone. -/

theorem free_vacant_remove {a : Arena α} {id : Id} {v : α} (h : a.get? id = some v) :
    ∀ s ∈ id.slot :: a.free, (a.slots.setIfInBounds id.slot none)[s]? = some none := by
  have hs := get?_eq_some_iff.1 h
  intro s hs'
  rw [Array.getElem?_setIfInBounds]
  split
  · obtain ⟨hlt, _⟩ := Array.getElem?_eq_some_iff.1 hs
    rw [if_pos hlt]
  · rename_i hne
    rcases List.mem_cons.1 hs' with rfl | hfree
    · exact absurd rfl hne
    · exact a.free_vacant s hfree

theorem free_nodup_remove {a : Arena α} {id : Id} {v : α} (h : a.get? id = some v) :
    (id.slot :: a.free).Nodup := by
  have hs := get?_eq_some_iff.1 h
  rw [List.nodup_cons]
  refine ⟨fun hfree => ?_, a.free_nodup⟩
  have hvacant := a.free_vacant id.slot hfree
  rw [hs] at hvacant
  simp at hvacant

theorem serial_lt_remove (a : Arena α) (id : Id) :
    ∀ (slot serial : Nat) (v : α),
      (a.slots.setIfInBounds id.slot none)[slot]? = some (some (serial, v)) → serial < a.next := by
  intro slot serial v hslot
  rw [Array.getElem?_setIfInBounds] at hslot
  split at hslot
  · split at hslot <;> simp at hslot
  · exact a.serial_lt slot serial v hslot

/-- Takes the value of an identifier out, if it is still there. -/
def remove? (a : Arena α) (id : Id) : Option (α × Arena α) :=
  match hv : a.get? id with
  | none => none
  | some v =>
    some (v,
      { slots := a.slots.setIfInBounds id.slot none
        free := id.slot :: a.free
        next := a.next
        free_vacant := free_vacant_remove hv
        free_nodup := free_nodup_remove hv
        serial_lt := serial_lt_remove a id })

/-- The values with their identifiers, in the order of the slots. -/
def toList (a : Arena α) : List (Id × α) :=
  a.slots.toList.zipIdx.filterMap fun (entry, slot) =>
    entry.map fun (serial, v) => (⟨slot, serial⟩, v)

/-- The values in the order of the slots. -/
def values (a : Arena α) : List α := a.toList.map Prod.snd

/-- The number of values. -/
def size (a : Arena α) : Nat := a.slots.countP Option.isSome

/-! ## Reading after a change -/

@[simp] theorem get?_empty (id : Id) : (empty : Arena α).get? id = none := by
  simp [get?, empty]

/-- The slot of a new value was vacant or beyond the last one. -/
theorem slots_insert (a : Arena α) (v : α) (slot : Nat) :
    (a.insert v).2.slots[slot]? =
      if slot = (a.insert v).1.slot then some (some (a.next, v)) else a.slots[slot]? := by
  unfold insert
  split
  · rename_i s free hf
    have hv := a.free_vacant s (by simp [hf])
    grind
  · simp only [Array.getElem?_push]

theorem insert_fst_serial (a : Arena α) (v : α) : (a.insert v).1.serial = a.next := by
  unfold insert
  split <;> rfl

/-- A new identifier names nothing before the insertion. -/
theorem get?_insert_fst (a : Arena α) (v : α) : a.get? (a.insert v).1 = none := by
  cases h : a.get? (a.insert v).1 with
  | none => rfl
  | some w =>
    have hs := a.serial_lt _ _ _ (get?_eq_some_iff.1 h)
    rw [insert_fst_serial] at hs
    exact absurd hs (Nat.lt_irrefl _)

theorem get?_insert_self (a : Arena α) (v : α) : (a.insert v).2.get? (a.insert v).1 = some v := by
  rw [get?_eq_some_iff, slots_insert, if_pos rfl, insert_fst_serial]

/-- The slot of a new value holds no other value. -/
theorem slots_insert_fst (a : Arena α) (v : α) (w : Nat × α) :
    a.slots[(a.insert v).1.slot]? ≠ some (some w) := by
  unfold insert
  split
  · rename_i s free hf
    have hv := a.free_vacant s (by simp [hf])
    simp [hv]
  · simp

theorem get?_insert_of_ne (a : Arena α) (v : α) {id : Id} (h : id ≠ (a.insert v).1) :
    (a.insert v).2.get? id = a.get? id := by
  apply Option.ext
  intro w
  rw [get?_eq_some_iff, get?_eq_some_iff, slots_insert]
  by_cases hs : id.slot = (a.insert v).1.slot
  · rw [if_pos hs, hs]
    have hne := slots_insert_fst a v (id.serial, w)
    have hid : a.next ≠ id.serial := by
      intro he
      apply h
      cases id
      cases hi : (a.insert v).1
      have := insert_fst_serial a v
      simp_all
    constructor
    · intro hw
      simp_all
    · intro hw
      exact absurd hw hne
  · rw [if_neg hs]

theorem get?_remove?_self {a b : Arena α} {id : Id} {v : α} (h : a.remove? id = some (v, b)) :
    a.get? id = some v ∧ b.get? id = none := by
  unfold remove? at h
  split at h
  · simp at h
  · rename_i w hw
    simp only [Option.some.injEq, Prod.mk.injEq] at h
    obtain ⟨rfl, rfl⟩ := h
    refine ⟨hw, ?_⟩
    have hs := get?_eq_some_iff.1 hw
    unfold get?
    simp only [Array.getElem?_setIfInBounds]
    grind

theorem get?_remove?_of_ne {a b : Arena α} {id other : Id} {v : α}
    (h : a.remove? id = some (v, b)) (hne : other ≠ id) : b.get? other = a.get? other := by
  unfold remove? at h
  split at h
  · simp at h
  · rename_i w hw
    simp only [Option.some.injEq, Prod.mk.injEq] at h
    obtain ⟨rfl, rfl⟩ := h
    have hs := get?_eq_some_iff.1 hw
    have hserial : other.slot = id.slot → other.serial ≠ id.serial := by
      intro h1 h2
      apply hne
      cases other
      cases id
      simp_all
    unfold get?
    simp only [Array.getElem?_setIfInBounds]
    by_cases hsl : other.slot = id.slot
    · have := hserial hsl
      grind
    · grind

theorem remove?_eq_none_iff {a : Arena α} {id : Id} : a.remove? id = none ↔ a.get? id = none := by
  unfold remove?
  split <;> simp_all

/-- The list has exactly the values with their identifiers. -/
theorem mem_toList {a : Arena α} {id : Id} {v : α} : (id, v) ∈ a.toList ↔ a.get? id = some v := by
  rw [get?_eq_some_iff]
  unfold toList
  simp only [List.mem_filterMap, Prod.exists, List.mem_zipIdx_iff_getElem?, Array.getElem?_toList,
    Option.map_eq_some_iff, Prod.mk.injEq]
  constructor
  · rintro ⟨entry, slot, he, ser, w, rfl, rfl, rfl⟩
    exact he
  · intro h
    exact ⟨_, _, h, id.serial, v, rfl, rfl, rfl⟩

/-- Where no slot is free a new value comes last. -/
theorem insert_of_free_eq_nil {a : Arena α} (h : a.free = []) (v : α) :
    (a.insert v).2.free = [] ∧ (a.insert v).2.values = a.values ++ [v] := by
  unfold insert
  split
  · simp_all
  · refine ⟨rfl, ?_⟩
    simp [values, toList, List.zipIdx_append]

theorem values_empty : (empty : Arena α).values = [] := by
  simp [values, toList, empty]

/-- Slots that are numbered from some number on give as many entries as are not empty. -/
theorem length_filterMap_zipIdx (slots : List (Option (Nat × α))) (n : Nat) :
    ((slots.zipIdx n).filterMap fun (entry, slot) =>
      entry.map fun (serial, v) => ((⟨slot, serial⟩ : Id), v)).length = slots.countP Option.isSome := by
  induction slots generalizing n with
  | nil => simp
  | cons e slots ih => cases e <;> simp [List.zipIdx_cons, ih]

/-- There are as many values as entries of the list. -/
theorem size_eq_length_values (a : Arena α) : a.size = a.values.length := by
  rw [size, ← Array.countP_toList, values, List.length_map, toList]
  exact (length_filterMap_zipIdx a.slots.toList 0).symm

end Arena

end Isomesh
