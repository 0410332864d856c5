import Isomesh.Cube

/-!
# Rotations of the cube

The rigid rotations of a cube as permutations of its corners. All come from two quarter turns.
`rotations` lists them in the order of their images of the corners.

Models `Rotation`: `IDENTITY`, `ABOUT_Z`, `ABOUT_X`, `apply`, `compose`, `apply_mask`, and the list
`rotations`.
-/

set_option autoImplicit false

namespace Isomesh

/-- A permutation of the corners that comes from turning the cube. -/
structure Rotation where
  /-- Where the corners go, in their order. -/
  image : List Corner
  deriving DecidableEq, Repr

namespace Rotation

/-- The rotation that moves nothing. -/
def identity : Rotation := ⟨[0, 1, 2, 3, 4, 5, 6, 7]⟩

/-- The quarter turn about the third axis. -/
def aboutZ : Rotation := ⟨[2, 0, 3, 1, 6, 4, 7, 5]⟩

/-- The quarter turn about the first axis. -/
def aboutX : Rotation := ⟨[2, 3, 6, 7, 0, 1, 4, 5]⟩

/-- Where a corner goes. -/
def apply (r : Rotation) (c : Corner) : Corner := r.image.getD c c

/-- First `inner`, then `outer`. -/
def compose (outer inner : Rotation) : Rotation := ⟨inner.image.map outer.apply⟩

/-- The set of the places where the corners of a set go. -/
def applyMask (r : Rotation) (m : CornerMask) : CornerMask := .ofList (m.toList.map r.apply)

/-- A number that orders rotations by their images, that of the first corner counting most. -/
def rank (r : Rotation) : Nat := r.image.foldl (fun n c => 8 * n + c.val) 0

/-- Puts a rotation into a list in order, unless it is there. -/
def enter (r : Rotation) : List Rotation → List Rotation
  | [] => [r]
  | s :: rest =>
    if r.rank < s.rank then r :: s :: rest
    else if r = s then s :: rest
    else s :: enter r rest

/-- Adds everything that one more quarter turn reaches, a given number of times. -/
def closure : Nat → List Rotation → List Rotation
  | 0, rs => rs
  | turns + 1, rs =>
    closure turns (rs.foldl (fun acc r => enter (aboutX.compose r) (enter (aboutZ.compose r) acc)) rs)

end Rotation

/-- All 24 rotations, in order. No rotation needs more than eight quarter turns. -/
def rotations : List Rotation := Rotation.closure 8 [.identity]

example : rotations.length = 24 := by decide +kernel

end Isomesh
