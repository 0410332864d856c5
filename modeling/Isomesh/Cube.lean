/-!
# The corners of a cube

Corner `c` of a cell is at `(c.x, c.y, c.z)`, each `0` or `1`: the binary digits of its number, the
lowest first. A `CornerMask` is a set of corners, one bit for each.

Models `CornerMask` with `mask` (`ofList`), and `corner_offset` (`Corner.x`, `Corner.y`, `Corner.z`).
-/

set_option autoImplicit false

namespace Isomesh

/-- A corner of a cube. -/
abbrev Corner := Fin 8

instance neZero_eight : @NeZero Nat .ofOfNat0 8 := ⟨by decide⟩

namespace Corner

/-- The corners in order. -/
def all : List Corner := [0, 1, 2, 3, 4, 5, 6, 7]

/-- The position along the first axis. -/
def x (c : Corner) : Nat := c.val % 2

/-- The position along the second axis. -/
def y (c : Corner) : Nat := c.val / 2 % 2

/-- The position along the third axis. -/
def z (c : Corner) : Nat := c.val / 4 % 2

theorem mem_all (c : Corner) : c ∈ all := by
  revert c
  decide

end Corner

/-- A set of corners. -/
abbrev CornerMask := BitVec 8

namespace CornerMask

/-- Whether a corner is in the set. -/
def has (m : CornerMask) (c : Corner) : Bool := m.getLsbD c

/-- The set with a corner added. -/
def insert (m : CornerMask) (c : Corner) : CornerMask := m ||| BitVec.twoPow 8 c

/-- The set of the corners of a list. -/
def ofList (cs : List Corner) : CornerMask := cs.foldl insert 0

/-- The corners of a set. -/
def toList (m : CornerMask) : List Corner := Corner.all.filter m.has

theorem has_insert (m : CornerMask) (c d : Corner) : (m.insert c).has d = (m.has d || d = c) := by
  simp only [has, insert, BitVec.getLsbD_or, BitVec.getLsbD_twoPow]
  grind

/-- The corners of a list that satisfy a test are added to a set. -/
theorem has_foldl_insert (test : Corner → Bool) (cs : List Corner) (m : CornerMask) (c : Corner) :
    (cs.foldl (fun m d => if test d then m.insert d else m) m).has c =
      (m.has c || cs.contains c && test c) := by
  induction cs generalizing m with
  | nil => simp
  | cons d cs ih =>
    rw [List.foldl_cons, ih, List.contains_cons]
    by_cases hcd : c = d
    · subst hcd
      cases test c <;> simp [has_insert]
    · have hne : (c == d) = false := by simpa using hcd
      rw [hne, Bool.false_or]
      split <;> simp [has_insert, hcd]

theorem has_ofList (cs : List Corner) (c : Corner) : (ofList cs).has c = cs.contains c := by
  have hfold := has_foldl_insert (fun _ => true) cs 0 c
  rw [Bool.and_true] at hfold
  simpa [ofList, has] using hfold

/-- The values of a function at all sets, by the number of the set. -/
def tabulate {α : Type} (f : CornerMask → α) : Array α :=
  Array.ofFn fun m : Fin (2 ^ 8) => f (BitVec.ofFin m)

theorem getD_tabulate {α : Type} (f : CornerMask → α) (m : CornerMask) (d : α) :
    (tabulate f).getD m.toNat d = f m := by
  have h : m.toNat < 2 ^ 8 := m.isLt
  rw [tabulate, Array.getD_eq_getD_getElem?, Array.getElem?_ofFn, dif_pos h]
  rfl

end CornerMask

end Isomesh
