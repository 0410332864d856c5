import Isomesh.Mesh

/-!
# Moving vertices

`Mesh.relocate` gives new places to vertices by their keys. `Mesh.mapM` passes every vertex through an
action that may keep a state of its own: it runs once for each distinct vertex, and all corners at
that vertex get the same answer.

Models `map_coords` (`mapM`, and `map` for a plain function) and the last step of welding, smoothing and
refinement, which look up the new place of each corner (`relocate`).
-/

set_option autoImplicit false

namespace Isomesh.Mesh

variable {K : Type} [Scalar K]

/-- Moves each corner to the place given for its key, if there is one. -/
def relocate (m : Mesh K) (place : VertexKey K → Option (Vec3 K)) : Mesh K :=
  ofTriangles (m.triangles.map fun t => t.map fun p => (place p.key).getD p)

@[simp] theorem triangles_relocate (m : Mesh K) (place : VertexKey K → Option (Vec3 K)) :
    (m.relocate place).triangles = m.triangles.map fun t => t.map fun p => (place p.key).getD p :=
  triangles_ofTriangles _

/-- The answers that a walk over the corners has got so far. -/
abbrev Answers (K : Type) [Scalar K] := Std.TreeMap (VertexKey K) (Vec3 K)

/-- Asks for the place of a point unless its key has been asked for. -/
def askOnce {m : Type → Type} [Monad m] (f : Vec3 K → m (Vec3 K)) (p : Vec3 K) :
    StateT (Answers K) m (Vec3 K) := do
  match (← get)[p.key]? with
  | some q => return q
  | none =>
    let q ← f p
    modify fun answers => answers.insert p.key q
    return q

/-- Passes every distinct vertex through an action. -/
def mapM {m : Type → Type} [Monad m] (mesh : Mesh K) (f : Vec3 K → m (Vec3 K)) : m (Mesh K) := do
  let ts ← (mesh.triangles.mapM (Triangle.mapM (askOnce f))).run' ∅
  return ofTriangles ts

/-- Passes every distinct vertex through a function. -/
def map (mesh : Mesh K) (f : Vec3 K → Vec3 K) : Mesh K := Id.run (mesh.mapM fun p => pure (f p))

end Isomesh.Mesh
