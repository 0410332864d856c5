import Mathlib
import Isomesh.Contour
import Isomesh.Proofs.WindowSound

/-!
# Sampling without a window

`directSweep` asks the solid for every corner of every cell and knows of no window. The sweep that
reads through a window of two or more planes gives the same triangles in the same order, or the same
error.

* `Sampling.Yields`: a computation on windows either succeeds with a given value, or fails with the
  first stray point of the whole lattice.
* `Window.Sweeping`: the invariant of the sweep at the cells over plane `k`. The window covers plane
  `k`, and no plane up to its last one has a stray point.
* `yields_get`, `yields_cellMask`, `yields_layers`, `yields_sweep`: the invariant through one question,
  one cell, the cells over some planes, and all of them.
* `roughContour_eq`: the unrefined surface is that of a direct sample.
-/

set_option autoImplicit false

namespace Isomesh

variable {K : Type} [Scalar K]

/-! ## The reference -/

namespace Lattice

/-- The inside corners of a cell, each asked of the solid. -/
def directMask (l : Lattice K) (solid : Solid K) (i j k : Nat) : CornerMask :=
  Corner.all.foldl (fun m c => if solid.contains (l.cellCorner i j k c) then m.insert c else m) 0

theorem has_directMask (l : Lattice K) (solid : Solid K) (i j k : Nat) (c : Corner) :
    (l.directMask solid i j k).has c = solid.contains (l.cellCorner i j k c) := by
  rw [directMask, CornerMask.has_foldl_insert (fun d => solid.contains (l.cellCorner i j k d)),
    List.contains_iff_mem.2 (Corner.mem_all c)]
  simp [CornerMask.has]

/-- The triangles of all cells, in the order of the cells. -/
def directSurface (l : Lattice K) (solid : Solid K) : List (Triangle K) :=
  l.cells.flatMap fun c => l.cellSurface c.1 c.2.1 c.2.2 (l.directMask solid c.1 c.2.1 c.2.2)

/-- The triangles of all cells, unless some border point of the lattice belongs to the solid: the
first of these, planes from below, rows in a plane, points in a row, is an error then. -/
def directSweep (l : Lattice K) (solid : Solid K) : Except (Error K) (List (Triangle K)) :=
  match l.firstStray? solid 0 l.nz with
  | some p => .error (.solidOutsideBounds p)
  | none => .ok (l.directSurface solid)

end Lattice

/-! ## Computations on windows -/

namespace Sampling

variable {α β : Type} {l : Lattice K} {solid : Solid K} {w : Window K}

/-- The computation succeeds on `w` with the value `a` and a window with the property `P`, or fails
with the first stray point of the lattice. -/
def Yields (l : Lattice K) (solid : Solid K) (x : Sampling K α) (w : Window K) (a : α)
    (P : Window K → Prop) : Prop :=
  (∃ w', x.run.run w = (.ok a, w') ∧ P w') ∨
    ∃ p w', l.firstStray? solid 0 l.nz = some p ∧
      x.run.run w = (.error (.solidOutsideBounds p), w')

theorem yields_pure (a : α) {P : Window K → Prop} (h : P w) :
    Yields l solid (pure a : Sampling K α) w a P :=
  .inl ⟨w, rfl, h⟩

theorem Yields.imp {x : Sampling K α} {a : α} {P Q : Window K → Prop} (h : Yields l solid x w a P)
    (hPQ : ∀ w', P w' → Q w') : Yields l solid x w a Q := by
  rcases h with ⟨w', hx, hP⟩ | h
  · exact .inl ⟨w', hx, hPQ w' hP⟩
  · exact .inr h

theorem Yields.bind {x : Sampling K α} {f : α → Sampling K β} {a : α} {b : β}
    {P Q : Window K → Prop} (hx : Yields l solid x w a P)
    (hf : ∀ w', P w' → Yields l solid (f a) w' b Q) : Yields l solid (x >>= f) w b Q := by
  rcases hx with ⟨w', hx, hP⟩ | ⟨p, w', hp, hx⟩
  · have hrun : (x >>= f).run.run w = (f a).run.run w' := by
      rw [ExceptT.run_bind, StateT.run_bind, hx]
      rfl
    unfold Yields
    rw [hrun]
    exact hf w' hP
  · refine .inr ⟨p, w', hp, ?_⟩
    rw [ExceptT.run_bind, StateT.run_bind, hx]
    rfl

end Sampling

namespace Window

open Sampling

/-- The state of the sweep at the cells over plane `k`. -/
structure Sweeping (l : Lattice K) (solid : Solid K) (k : Nat) (w : Window K) : Prop where
  faithful : w.Faithful
  lattice_eq : w.lattice = l
  solid_eq : w.solid = solid
  two_le : 2 ≤ w.planes
  covers : w.covers k = true
  clean : ∀ q < w.start + w.planes, ¬l.HasStray solid q

variable {l : Lattice K} {solid : Solid K} {w : Window K} {i j k : Nat}

/-- The sweep goes on to the next plane once the window covers it. -/
theorem Sweeping.next (hw : w.Sweeping l solid k) (hc : w.covers (k + 1) = true) :
    w.Sweeping l solid (k + 1) :=
  { hw with covers := hc }

/-- The window that the sweep moves to covers both planes of the cell. -/
theorem Sweeping.restart (hw : w.Sweeping l solid k) (hk : k + 1 < l.nz)
    (hc : ¬w.covers (k + 1) = true) (hs : w.freshStray? (w.centered (k + 1)) = none) :
    (w.restarted (w.centered (k + 1))).Sweeping l solid k ∧
      (w.restarted (w.centered (k + 1))).covers (k + 1) = true := by
  have htwo := hw.two_le
  have hfits := hw.faithful.fits
  have hlat := hw.lattice_eq
  obtain ⟨hstart, hcov⟩ := hw.faithful.centered_spec (k := k + 1) (by rw [hlat]; exact hk)
  obtain ⟨h1, h2⟩ := covers_iff.1 hw.covers
  have hend : k + 1 = w.start + w.planes := by
    have := mt covers_iff.2 hc
    omega
  have hle : w.centered (k + 1) ≤ k := by
    unfold centered
    omega
  have hcov' : (w.restarted (w.centered (k + 1))).covers k = true := by
    rw [covers_iff] at hcov ⊢
    exact ⟨hle, by omega⟩
  refine ⟨⟨hw.faithful.restart hstart, hlat, hw.solid_eq, htwo, hcov', fun q hq => ?_⟩, hcov⟩
  by_cases hold : q < w.start + w.planes
  · exact hw.clean q hold
  · intro hstray
    refine freshStray?_eq_none_iff.1 hs ⟨q, ?_, ?_, ?_⟩
    · rw [covers_iff]
      refine ⟨?_, hq⟩
      show w.centered (k + 1) ≤ q
      omega
    · rw [covers_iff]
      omega
    · rw [hlat, hw.solid_eq]
      exact hstray

/-- A stray point found while sweeping is the first one of the lattice. -/
theorem Sweeping.firstStray (hw : w.Sweeping l solid k) (hk : k + 1 < l.nz)
    (hc : ¬w.covers (k + 1) = true) {p : Vec3 K}
    (hs : w.freshStray? (w.centered (k + 1)) = some p) : l.firstStray? solid 0 l.nz = some p := by
  have hlat := hw.lattice_eq
  obtain ⟨hstart, hcov⟩ := hw.faithful.centered_spec (k := k + 1) (by rw [hlat]; exact hk)
  obtain ⟨h1, h2⟩ := covers_iff.1 hw.covers
  have htwo := hw.two_le
  have hup : k + 1 < w.centered (k + 1) + w.planes := (covers_iff.1 hcov).2
  have hend : k + 1 = w.start + w.planes := by
    have := mt covers_iff.2 hc
    omega
  have hle : w.centered (k + 1) ≤ k := by
    unfold centered
    omega
  -- the window moves up and keeps plane `k`, so the new planes are those above its old end
  have hfresh : w.freshPlanes (w.centered (k + 1)) =
      (w.start + w.planes, w.centered (k + 1) - w.start) := by
    rw [freshPlanes, if_pos (by omega), Prod.mk.injEq]
    omega
  rw [freshStray?, hfresh, hlat, hw.solid_eq] at hs
  exact Lattice.firstStray?_of_clean hw.clean (by rw [hlat] at hstart; omega) hs

/-- **One question of the sweep**, about plane `k` or the next. -/
theorem Sweeping.yields_get (hw : w.Sweeping l solid k) (hk : k + 1 < l.nz) (hi : i < l.nx) {j z : Nat}
    (hj : j < l.ny) (hz : z = k ∨ z = k + 1) :
    Yields l solid (Window.get i j z) w (solid.contains (l.corner i j z)) fun w' =>
      w'.Sweeping l solid k ∧ (w.covers (k + 1) = true ∨ z = k + 1 → w'.covers (k + 1) = true) := by
  have hlat := hw.lattice_eq
  by_cases hc : w.covers z = true
  · refine .inl ⟨w, ?_, hw, ?_⟩
    · have := ask_of_covers hc i j
      rw [hw.faithful.value_eq (by rwa [hlat]) (by rwa [hlat]) hc, hlat, hw.solid_eq] at this
      exact this
    · rintro (h | rfl)
      · exact h
      · exact hc
  · have hz : z = k + 1 := hz.resolve_left fun h => hc (h ▸ hw.covers)
    subst hz
    cases hs : w.freshStray? (w.centered (k + 1)) with
    | none =>
      obtain ⟨hnext, hcov⟩ := hw.restart hk hc hs
      refine .inl ⟨_, ?_, hnext, fun _ => hcov⟩
      have := hw.faithful.ask_of_freshStray_eq_none hc hs i j
      rw [hnext.faithful.value_eq (by rwa [hnext.lattice_eq]) (by rwa [hnext.lattice_eq]) hcov,
        hnext.lattice_eq, hnext.solid_eq] at this
      exact this
    | some p =>
      exact .inr ⟨p, _, hw.firstStray hk hc hs, hw.faithful.ask_of_freshStray hc hs i j⟩

/-- The corners of a cell that are still to be asked for, with the mask of the others. -/
theorem yields_corners (hi : i + 1 < l.nx) (hj : j + 1 < l.ny) (hk : k + 1 < l.nz)
    (cs : List Corner) :
    ∀ (w : Window K) (m : CornerMask), w.Sweeping l solid k →
      Yields l solid
        (cs.foldlM (fun m c => do
          return if ← Window.get (i + c.x) (j + c.y) (k + c.z) then m.insert c else m) m : Sampling K _)
        w
        (cs.foldl (fun m c => if solid.contains (l.cellCorner i j k c) then m.insert c else m) m)
        fun w' => w'.Sweeping l solid k ∧
          ((w.covers (k + 1) = true ∨ ∃ c ∈ cs, c.z = 1) → w'.covers (k + 1) = true) := by
  induction cs with
  | nil =>
    intro w m hw
    refine yields_pure m ⟨hw, ?_⟩
    rintro (h | ⟨c, hc, _⟩)
    · exact h
    · cases hc
  | cons c cs ih =>
    intro w m hw
    have hx : c.x < 2 := Nat.mod_lt _ (by decide)
    have hy : c.y < 2 := Nat.mod_lt _ (by decide)
    have hz : c.z < 2 := Nat.mod_lt _ (by decide)
    have hget := hw.yields_get (i := i + c.x) (j := j + c.y) (z := k + c.z) hk (by omega) (by omega)
      (by omega)
    rw [List.foldlM_cons, List.foldl_cons]
    refine Yields.bind (hget.bind fun w' hw' => yields_pure _ hw') ?_
    rintro w' ⟨hw', hcov⟩
    refine (ih w' _ hw').imp fun w'' => ?_
    rintro ⟨hw'', hcov'⟩
    refine ⟨hw'', ?_⟩
    rintro (h | ⟨d, hd, hdz⟩)
    · exact hcov' (.inl (hcov (.inl h)))
    · rcases List.mem_cons.1 hd with rfl | hd
      · exact hcov' (.inl (hcov (.inr (by omega))))
      · exact hcov' (.inr ⟨d, hd, hdz⟩)

/-- **One cell of the sweep.** The window covers the upper plane of the cell afterwards. -/
theorem Sweeping.yields_cellMask (hw : w.Sweeping l solid k) (hi : i + 1 < l.nx) (hj : j + 1 < l.ny)
    (hk : k + 1 < l.nz) :
    Yields l solid (cellMask i j k) w (l.directMask solid i j k) fun w' =>
      w'.Sweeping l solid k ∧ w'.covers (k + 1) = true :=
  (yields_corners hi hj hk Corner.all w 0 hw).imp fun _ h =>
    ⟨h.1, h.2 (.inr ⟨7, Corner.mem_all 7, rfl⟩)⟩

/-! ## All cells -/

/-- One cell of the sweep. -/
def sweepCell (l : Lattice K) (c : Nat × Nat × Nat) : Sampling K (List (Triangle K)) := do
  return l.cellSurface c.1 c.2.1 c.2.2 (← cellMask c.1 c.2.1 c.2.2)

/-- The triangles of a cell whose corners are asked of the solid. -/
def directCell (l : Lattice K) (solid : Solid K) (c : Nat × Nat × Nat) : List (Triangle K) :=
  l.cellSurface c.1 c.2.1 c.2.2 (l.directMask solid c.1 c.2.1 c.2.2)

/-- The cells over plane `k`. -/
def layer (l : Lattice K) (k : Nat) : List (Nat × Nat × Nat) :=
  (List.range (l.ny - 1)).flatMap fun j => (List.range (l.nx - 1)).map fun i => (i, j, k)

omit [Scalar K] in
theorem mem_layer {c : Nat × Nat × Nat} :
    c ∈ layer l k ↔ c.1 + 1 < l.nx ∧ c.2.1 + 1 < l.ny ∧ c.2.2 = k := by
  obtain ⟨i, j, k'⟩ := c
  simp only [layer, List.mem_flatMap, List.mem_map, List.mem_range, Prod.mk.injEq]
  constructor
  · rintro ⟨j', hj, i', hi, rfl, rfl, rfl⟩
    omega
  · rintro ⟨hi, hj, rfl⟩
    exact ⟨j, by omega, i, by omega, rfl, rfl, rfl⟩

/-- The cells over one plane, or some of them. -/
theorem yields_cells (hk : k + 1 < l.nz) (cs : List (Nat × Nat × Nat)) :
    (∀ c ∈ cs, c ∈ layer l k) → ∀ w : Window K, w.Sweeping l solid k →
      Yields l solid (cs.flatMapM (sweepCell l)) w (cs.flatMap (directCell l solid)) fun w' =>
        w'.Sweeping l solid k ∧
          (w.covers (k + 1) = true ∨ cs ≠ [] → w'.covers (k + 1) = true) := by
  induction cs with
  | nil => exact fun _ w hw => yields_pure [] ⟨hw, fun h => h.resolve_right fun hne => hne rfl⟩
  | cons c cs ih =>
    intro hcs w hw
    obtain ⟨hi, hj, hz⟩ := mem_layer.1 (hcs c List.mem_cons_self)
    have hcell : Yields l solid (sweepCell l c) w (directCell l solid c) fun w' =>
        w'.Sweeping l solid k ∧ w'.covers (k + 1) = true := by
      unfold sweepCell directCell
      rw [hz]
      exact (hw.yields_cellMask hi hj hk).bind fun w' hw' => yields_pure _ hw'
    rw [List.flatMapM_cons, List.flatMap_cons]
    refine hcell.bind ?_
    rintro w' ⟨hw', hcov⟩
    refine (ih (fun d hd => hcs d (List.mem_cons_of_mem _ hd)) w' hw').bind ?_
    rintro w'' ⟨hw'', hcov'⟩
    exact yields_pure _ ⟨hw'', fun _ => hcov' (.inl hcov)⟩

theorem flatMapM_append {m : Type → Type} [Monad m] [LawfulMonad m] {α β : Type}
    (f : α → m (List β)) (as bs : List α) :
    (as ++ bs).flatMapM f = do
      let cs ← as.flatMapM f
      let ds ← bs.flatMapM f
      return cs ++ ds := by
  induction as with
  | nil => simp
  | cons a as ih =>
    rw [List.cons_append, List.flatMapM_cons, ih, List.flatMapM_cons]
    simp only [bind_assoc, pure_bind, List.append_assoc]

/-- The cells over `n` planes from plane `k` on. -/
theorem yields_layers (hx : 2 ≤ l.nx) (hy : 2 ≤ l.ny) (n : Nat) :
    ∀ (k : Nat) (w : Window K), k + n < l.nz → w.Sweeping l solid k →
      Yields l solid (((List.range' k n).flatMap (layer l)).flatMapM (sweepCell l)) w
        (((List.range' k n).flatMap (layer l)).flatMap (directCell l solid))
        fun w' => w'.Sweeping l solid (k + n) := by
  induction n with
  | zero => exact fun k w _ hw => yields_pure [] hw
  | succ n ih =>
    intro k w hk hw
    have hne : layer l k ≠ [] := List.ne_nil_of_mem (a := (0, 0, k)) (mem_layer.2 ⟨hx, hy, rfl⟩)
    rw [List.range'_succ, List.flatMap_cons, flatMapM_append, List.flatMap_append]
    refine (yields_cells (by omega) (layer l k) (fun _ h => h) w hw).bind ?_
    rintro w' ⟨hw', hcov⟩
    refine (ih (k + 1) w' (by omega) (hw'.next (hcov (.inr hne)))).bind ?_
    intro w'' hw''
    exact yields_pure _ (by rwa [show k + (n + 1) = k + 1 + n by omega])

/-- **All cells.** When the sweep ends, no border point of the lattice belongs to the solid. -/
theorem Sweeping.yields_sweep (hw : w.Sweeping l solid 0) (hx : 2 ≤ l.nx) (hy : 2 ≤ l.ny)
    (hz : 2 ≤ l.nz) :
    Yields l solid (sweep l) w (l.directSurface solid)
      fun _ => l.firstStray? solid 0 l.nz = none := by
  have hcells : l.cells = (List.range' 0 (l.nz - 1)).flatMap (layer l) := by
    rw [← List.range_eq_range']
    rfl
  have hall := yields_layers hx hy (l.nz - 1) 0 w (by omega) hw
  rw [← hcells] at hall
  refine hall.imp fun w' hw' => Lattice.firstStray?_eq_none_iff.2 fun q _ hq => hw'.clean q ?_
  have hfits := hw'.faithful.fits
  have hcov := (covers_iff.1 hw'.covers).2
  omega

theorem sweeping_first {planes : Nat} (hp : 2 ≤ planes) (hz : 2 ≤ l.nz)
    (h : l.firstStray? solid 0 (planeCount l planes) = none) :
    (first solid l planes).Sweeping l solid 0 := by
  have htwo : 2 ≤ planeCount l planes := by
    unfold planeCount
    omega
  refine ⟨faithful_first (by omega) planes, rfl, rfl, htwo, ?_, fun q hq => ?_⟩
  · rw [covers_iff]
    show 0 ≤ 0 ∧ 0 < 0 + planeCount l planes
    omega
  · exact Lattice.firstStray?_eq_none_iff.1 h q (Nat.zero_le q) hq

end Window

/-! ## The surface -/

open Window

/-- Sampling a lattice through a window that fits into memory. -/
theorem sampled_eq_directSweep (solid : Solid K) {l : Lattice K} {planes : Nat} (hx : 2 ≤ l.nx)
    (hy : 2 ≤ l.ny) (hz : 2 ≤ l.nz) (hp : 2 ≤ planes)
    (hsize : l.nx * l.ny * planeCount l planes < allocationLimit) :
    (do let w ← Window.onto solid l planes; ((sweep l).run.run w).1) = l.directSweep solid := by
  have hlimit : ¬Lattice.countLimit ≤ l.nx * l.ny * planeCount l planes := by
    unfold allocationLimit at hsize
    unfold Lattice.countLimit
    omega
  rw [onto_eq, if_neg hlimit, if_neg (Nat.not_le.2 hsize)]
  cases hs : l.firstStray? solid 0 (planeCount l planes) with
  | some p =>
    have htop : 0 + planeCount l planes ≤ l.nz := by
      unfold planeCount
      omega
    have hall := Lattice.firstStray?_of_clean (fun _ hk => absurd hk (Nat.not_lt_zero _)) htop hs
    rw [Lattice.directSweep, hall]
    rfl
  | none =>
    show ((sweep l).run.run (first solid l planes)).1 = _
    rcases (sweeping_first hp hz hs).yields_sweep hx hy hz with ⟨w', hrun, hnone⟩ | ⟨p, w', hp, hrun⟩
    · rw [hrun, Lattice.directSweep, hnone]
    · rw [hrun, Lattice.directSweep, hp]

theorem roughContour_eq {solid : Solid K} {r : Resolution K} {l : Lattice K}
    (hl : Lattice.around solid.bounds r.delta = .ok l) (hp : 2 ≤ r.planes)
    (hsize : l.nx * l.ny * planeCount l r.planes < allocationLimit) :
    roughContour solid r = (l.directSweep solid).map fun ts => (l, .ofTriangles ts) := by
  obtain ⟨hx, hy, hz⟩ := Lattice.three_le_of_around hl
  have hvalid : r.validate = .ok () := by
    rw [Resolution.validate, (Lattice.around_spec hl).1, if_neg (by decide),
      if_neg (Nat.not_lt.2 hp)]
  have hsweep := sampled_eq_directSweep solid (by omega) (by omega) (by omega) hp hsize
  calc roughContour solid r
    _ = (do
        let w ← Window.onto solid l r.planes
        let ts ← ((sweep l).run.run w).1
        return (l, .ofTriangles ts)) := by
      unfold roughContour
      rw [hvalid, hl]
      rfl
    _ = (do let w ← Window.onto solid l r.planes; ((sweep l).run.run w).1).map
          fun ts => (l, .ofTriangles ts) := by
      cases Window.onto solid l r.planes <;> rfl
    _ = _ := by rw [hsweep]

theorem accepted_of_roughContour {solid : Solid K} {r : Resolution K} {l : Lattice K} {mesh : Mesh K}
    (h : roughContour solid r = .ok (l, mesh)) :
    r.validate = .ok () ∧ Lattice.around solid.bounds r.delta = .ok l ∧
      ∃ w, Window.onto solid l r.planes = .ok w := by
  unfold roughContour at h
  obtain ⟨_, hvalid, h⟩ := exists_of_bind_eq_ok h
  obtain ⟨l', hl, h⟩ := exists_of_bind_eq_ok h
  obtain ⟨w, hw, h⟩ := exists_of_bind_eq_ok h
  obtain ⟨ts, -, h⟩ := exists_of_bind_eq_ok h
  cases h
  exact ⟨hvalid, hl, w, hw⟩

/-- An unrefined surface is that of all cells, and no border point belongs to the solid. -/
theorem roughContour_eq_ok {solid : Solid K} {r : Resolution K} {l : Lattice K} {mesh : Mesh K}
    (h : roughContour solid r = .ok (l, mesh)) :
    Lattice.around solid.bounds r.delta = .ok l ∧ (∀ k < l.nz, ¬l.HasStray solid k) ∧
      mesh = .ofTriangles (l.directSurface solid) := by
  obtain ⟨hvalid, hl, w, hw⟩ := accepted_of_roughContour h
  have hp : 2 ≤ r.planes := by
    rw [Resolution.validate, (Lattice.around_spec hl).1, if_neg (by decide)] at hvalid
    by_contra hlt
    rw [if_pos (Nat.not_le.1 hlt)] at hvalid
    cases hvalid
  have hsize : l.nx * l.ny * planeCount l r.planes < allocationLimit := by
    rw [onto_eq] at hw
    by_contra hlt
    rw [if_pos (Nat.not_lt.1 hlt)] at hw
    split at hw <;> cases hw
  rw [roughContour_eq hl hp hsize, Lattice.directSweep] at h
  cases hs : l.firstStray? solid 0 l.nz with
  | some p =>
    rw [hs] at h
    cases h
  | none =>
    rw [hs] at h
    cases h
    exact ⟨hl, fun k hk => Lattice.firstStray?_eq_none_iff.1 hs k (Nat.zero_le k) (by omega), rfl⟩

theorem Lattice.directSweep_eq_error_iff {solid : Solid K} {l : Lattice K} :
    (∃ e, l.directSweep solid = .error e) ↔ ∃ k < l.nz, l.HasStray solid k := by
  unfold directSweep
  cases h : l.firstStray? solid 0 l.nz with
  | none =>
    constructor
    · rintro ⟨e, ⟨⟩⟩
    · rintro ⟨k, hk, hs⟩
      exact absurd hs (firstStray?_eq_none_iff.1 h k (Nat.zero_le k) (by omega))
  | some p =>
    obtain ⟨i, j, k, hi, hj, _, hk, hb, hc, _⟩ := firstStray?_eq_some h
    exact ⟨fun _ => ⟨k, by omega, i, j, hi, hj, hb, hc⟩, fun _ => ⟨_, rfl⟩⟩

/-- **The window is transparent.** Over an accepted lattice and through any window of two or more
planes that fits into memory, sampling gives the triangles of direct sampling in the same order. It
fails exactly when some border point of the lattice belongs to the solid, and with the first of these.
So the number of planes does not change the surface. -/
theorem window_transparent_to_contour {solid : Solid K} {r : Resolution K} {l : Lattice K}
    (hl : Lattice.around solid.bounds r.delta = .ok l) (hp : 2 ≤ r.planes)
    (hsize : l.nx * l.ny * max 1 (min r.planes l.nz) < allocationLimit) :
    roughContour solid r = (l.directSweep solid).map (fun ts => (l, .ofTriangles ts)) ∧
      ((∃ e, roughContour solid r = .error e) ↔ ∃ i j k, i < l.nx ∧ j < l.ny ∧ k < l.nz ∧
        l.isBorder i j k = true ∧ solid.contains (l.corner i j k) = true) ∧
      (∀ mesh, roughContour solid r = .ok (l, mesh) → mesh.triangles = l.directSurface solid) ∧
      ∀ planes, 2 ≤ planes → l.nx * l.ny * max 1 (min planes l.nz) < allocationLimit →
        roughContour solid { r with planes } = roughContour solid r ∧
          contour solid { r with planes } = contour solid r := by
  have heq := roughContour_eq hl hp hsize
  refine ⟨heq, ?_, ?_, ?_⟩
  · rw [heq]
    have hmap : (∃ e, (l.directSweep solid).map (fun ts => (l, Mesh.ofTriangles ts)) = .error e) ↔
        ∃ e, l.directSweep solid = .error e := by
      cases l.directSweep solid <;> simp [Except.map]
    rw [hmap, Lattice.directSweep_eq_error_iff]
    constructor
    · rintro ⟨k, hk, i, j, hi, hj, h⟩
      exact ⟨i, j, k, hi, hj, hk, h⟩
    · rintro ⟨i, j, k, hi, hj, hk, h⟩
      exact ⟨k, hk, i, j, hi, hj, h⟩
  · intro mesh hm
    rw [heq, Lattice.directSweep] at hm
    split at hm
    · cases hm
    · cases hm
      exact Mesh.triangles_ofTriangles _
  · intro planes hp' hsize'
    have hrough : roughContour solid { r with planes } = roughContour solid r := by
      rw [heq]
      exact roughContour_eq (r := { r with planes }) hl hp' hsize'
    refine ⟨hrough, ?_⟩
    unfold contour
    rw [hrough]

/-- A column of three lattice points. -/
def column : Solid ℚ := .box ⟨⟨0, 0, 0⟩, ⟨0, 0, 2⟩⟩

/-- The surface of a column, through a window of two planes that has to move and through one that
holds the whole lattice. -/
theorem column_window_transparent :
    (tower.directSurface column).length = 24 ∧
      roughContour column ⟨1, 0, 2⟩ = .ok (tower, .ofTriangles (tower.directSurface column)) ∧
      roughContour column ⟨1, 0, 64⟩ = roughContour column ⟨1, 0, 2⟩ := by
  have hl : Lattice.around column.bounds 1 = .ok tower := by decide +kernel
  have hnone : tower.firstStray? column 0 tower.nz = none := by decide +kernel
  obtain ⟨heq, _, _, hplanes⟩ := window_transparent_to_contour (r := ⟨1, 0, 2⟩) hl (by decide)
    (by decide)
  refine ⟨by decide +kernel, ?_, (hplanes 64 (by decide) (by decide)).1⟩
  rw [heq, Lattice.directSweep, hnone]
  rfl

end Isomesh
