import Isomesh.Mesh.Collapse

/-!
# Simplification

Collapses edges that a test approves until none is left. The edges are taken in the order of their
keys; edges that a collapse brings about come at the end. When all have been tried and some edge has
been collapsed since, another pass begins. The test sees the mesh as it is at that moment.

* `Simplifying.step`: finds and collapses the next edge, or says that there is none.
* `Simplifying.run`: repeats the step. A number of steps bounds the run.
* `Mesh.simplifyFlat`: collapses edges in flat neighbourhoods.

Models `EliminateEdges`, with its two nested loops as steps, `is_coplanar` (`isFlatAround`) and
`EliminateCoplanar` (`simplifyFlat`). The number of questions and the list of collapsed edges are kept as an
account of the run.
-/

set_option autoImplicit false

namespace Isomesh

variable {K : Type} [Scalar K]

/-- A test on a mesh and one of its edges. -/
abbrev Approval (K : Type) [Scalar K] := Mesh K → Segment K → Bool

/-- A simplification under way. -/
structure Simplifying (K : Type) [Scalar K] where
  mesh : Mesh K
  /-- The edges that can still be collapsed. -/
  waiting : EdgeSet K
  /-- What is left of the present pass. -/
  queue : List (Segment K)
  /-- How often the test has been asked. -/
  asked : Nat
  /-- The edges collapsed so far, in order. -/
  collapsed : List (Segment K)

/-- What a step leads to. -/
inductive Simplifying.Step (K : Type) [Scalar K] where
  | finished (w : Simplifying K)
  | onward (w : Simplifying K)

namespace Simplifying

/-- The start: all edges wait and no pass has begun. -/
def start (m : Mesh K) : Simplifying K :=
  { mesh := (Mesh.ofTriangles m.triangles).indexed
    waiting := .ofEdges m.edges
    queue := []
    asked := 0
    collapsed := [] }

/-- Looks for an edge that waits, can be collapsed and is approved. Returns how often the test was
asked, and the edge with the rest of the list. -/
def firstApproved (approve : Approval K) (w : Simplifying K) :
    List (Segment K) → Nat × Option (Segment K × List (Segment K))
  | [] => (0, none)
  | s :: rest =>
    if w.waiting.contains s.key && w.mesh.canCollapse s then
      if approve w.mesh s then (1, some (s, rest))
      else
        let (asked, found) := firstApproved approve w rest
        (asked + 1, found)
    else firstApproved approve w rest

/-- Collapses an edge and goes on with the rest of the pass. -/
def collapse (w : Simplifying K) (asked : Nat) (s : Segment K) (rest : List (Segment K)) :
    Simplifying K :=
  let c := w.mesh.collapse s w.waiting
  { mesh := c.mesh
    waiting := c.waiting
    queue := rest ++ c.added
    asked := w.asked + asked
    collapsed := w.collapsed ++ [s] }

/-- Collapses the next approved edge of this pass or, if there is none, of a new one. -/
def step (approve : Approval K) (w : Simplifying K) : Step K :=
  match w.firstApproved approve w.queue with
  | (asked, some (s, rest)) => .onward (w.collapse asked s rest)
  | (asked, none) =>
    match w.firstApproved approve w.waiting.values with
    | (again, some (s, rest)) => .onward (w.collapse (asked + again) s rest)
    | (again, none) => .finished { w with queue := [], asked := w.asked + (asked + again) }

/-- Repeats the step until there is nothing to collapse; `none` if that takes too many steps. -/
def run (approve : Approval K) : Nat → Simplifying K → Option (Simplifying K)
  | 0, _ => none
  | steps + 1, w =>
    match w.step approve with
    | .finished done => some done
    | .onward next => run approve steps next

end Simplifying

namespace Mesh

/-- A number of steps for any run that ends. Each collapse takes a triangle away, unless the edge had
left the surface while it was waiting; degenerate triangles alone leave such edges, at most three
for each triangle in every pass. -/
def stepLimit (m : Mesh K) : Nat :=
  let sides := 3 * m.triangleCount + 3
  sides * sides * sides

/-- Collapses approved edges until none is left. -/
def simplify (approve : Approval K) (m : Mesh K) : Option (Simplifying K) :=
  (Simplifying.start m).run approve m.stepLimit

/-- Whether the unit normals around an edge all agree: their inner products with the first one differ
from one by at most `epsilon`. -/
def isFlatAround (epsilon : K) (m : Mesh K) (s : Segment K) : Bool :=
  match (s.ends.flatMap fun p => m.named (m.trianglesAt p)).map Triangle.normal with
  | [] => true
  | first :: rest => rest.all fun n => !(epsilon < Scalar.abs (n.dot first - 1))

/-- Collapses edges whose surrounding triangles lie in one plane. -/
def simplifyFlat (epsilon : K) (m : Mesh K) : Except (Error K) (Option (Simplifying K)) :=
  if Scalar.isFinite epsilon && 0 ≤ epsilon then .ok (m.simplify (isFlatAround epsilon))
  else .error (.input (.coplanarity epsilon))

end Mesh

end Isomesh
