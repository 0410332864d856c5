import Isomesh.Lattice
import Isomesh.Solid

/-!
# Windows of membership

Which points of a lattice belong to a solid, for some neighbouring planes at a time. Asking for a
plane outside the window moves the window so that the plane is in its middle, as far as the lattice
allows. Planes that stay in the window are kept and the others sampled.

A solid has no business on the border of the lattice, so every newly sampled plane is searched for
border points inside the solid. The first one is an error. The window has moved by then, and stays
usable.

Models `SolidCache`: `new` (`onto`), `get`, `window_start`, `recenter` (`centered`, `moveTo`) and `fill`
(`sample`, `checkBorder`).
-/

set_option autoImplicit false

namespace Isomesh

/-- The membership of the lattice points of planes `start`, `start + 1`, and so on. -/
structure Window (K : Type) where
  solid : Solid K
  lattice : Lattice K
  /-- The number of planes. -/
  planes : Nat
  /-- The first plane. -/
  start : Nat
  /-- Plane after plane, row after row. -/
  values : Array Bool

namespace Window

variable {K : Type} [Scalar K]

/-- Bytes that can be asked for at once; each value takes one. -/
def allocationLimit : Nat := 1 <<< 63

/-- The place of a number in a sequence of planes that starts with plane `first`. -/
def place (l : Lattice K) (first n : Nat) : Nat × Nat × Nat :=
  (n % l.nx, n / l.nx % l.ny, first + n / (l.nx * l.ny))

/-- Asks the solid for all points of some planes. -/
def sample (solid : Solid K) (l : Lattice K) (first count : Nat) : Array Bool :=
  Array.ofFn fun n : Fin (count * (l.nx * l.ny)) =>
    let (i, j, k) := place l first n
    solid.contains (l.corner i j k)

/-- The first border point inside the solid among the values of planes from `first` on. -/
def strayPoint (l : Lattice K) (first : Nat) (values : Array Bool) : Option (Vec3 K) :=
  (List.range values.size).findSome? fun n =>
    let (i, j, k) := place l first n
    if values.getD n false && l.isBorder i j k then some (l.corner i j k) else none

/-- Passes unless some border point is inside. -/
def checkBorder (l : Lattice K) (first : Nat) (values : Array Bool) : Except (Error K) Unit :=
  match strayPoint l first values with
  | some p => .error (.solidOutsideBounds p)
  | none => .ok ()

/-- A window on the first planes of a lattice; at least one and at most all. -/
def onto (solid : Solid K) (lattice : Lattice K) (planes : Nat) : Except (Error K) (Window K) := do
  let planes := max 1 (min planes lattice.nz)
  let size := lattice.nx * lattice.ny * planes
  if Lattice.countLimit ≤ size then
    throw (.parameter (.windowTooLarge planes))
  if allocationLimit ≤ size then
    throw (.parameter .windowNotAllocatable)
  let values := sample solid lattice 0 planes
  checkBorder lattice 0 values
  return ⟨solid, lattice, planes, 0, values⟩

/-- Whether a plane is in the window. -/
def covers (w : Window K) (k : Nat) : Bool := w.start ≤ k && k < w.start + w.planes

/-- The position of a point in the values. -/
def position (w : Window K) (i j k : Nat) : Nat :=
  ((k - w.start) * w.lattice.ny + j) * w.lattice.nx + i

/-- The membership of a point of a plane in the window. -/
def value (w : Window K) (i j k : Nat) : Bool := w.values.getD (w.position i j k) false

/-- The first plane of the window that has plane `k` in its middle. -/
def centered (w : Window K) (k : Nat) : Nat := min (k - w.planes / 2) (w.lattice.nz - w.planes)

/-- Moves the window to another first plane and says whether the new planes respect the border. -/
def moveTo (w : Window K) (start : Nat) : Except (Error K) Unit × Window K :=
  let plane := w.lattice.nx * w.lattice.ny
  if w.start < start then
    let kept := w.planes - (start - w.start)
    let fresh := sample w.solid w.lattice (start + kept) (w.planes - kept)
    (checkBorder w.lattice (start + kept) fresh,
      { w with start, values := w.values.extract ((w.planes - kept) * plane) ++ fresh })
  else
    let kept := w.planes - (w.start - start)
    let fresh := sample w.solid w.lattice start (w.planes - kept)
    (checkBorder w.lattice start fresh,
      { w with start, values := fresh ++ w.values.extract 0 (kept * plane) })

end Window

/-- Computations that read a window and may fail. What a failure leaves behind is the window as it
was then. -/
abbrev Sampling (K : Type) := ExceptT (Error K) (StateM (Window K))

namespace Window

variable {K : Type} [Scalar K]

/-- Moves the window unless it covers a plane. -/
def cover (k : Nat) : Sampling K Unit := fun w =>
  if w.covers k then (.ok (), w) else w.moveTo (w.centered k)

/-- Whether a point of the lattice is inside the solid. -/
def get (i j k : Nat) : Sampling K Bool := do
  cover k
  return (← getThe (Window K)).value i j k

end Window

end Isomesh
