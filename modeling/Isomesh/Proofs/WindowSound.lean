import Mathlib
import Isomesh.Proofs.Exact
import Isomesh.Proofs.Planes

/-!
# A window never serves a stale value

A window is `Faithful` when its values are those of a fresh sample of its planes. The first window of
a lattice is, and every question, answered or failed, leaves one behind.

* `Window.moveTo_eq`: a move leaves the window that sampling all planes anew would give, and fails
  exactly for the first stray point of the planes that were not in the window before.
* `Window.ask_serves`: what one question does to a faithful window.
* `Window.askAll_inv`: what every sequence of questions keeps.
* `Window.asked_window_never_stale`: the two together, for every history of a window.
-/

set_option autoImplicit false

namespace Isomesh.Window

variable {K : Type}

theorem covers_iff {w : Window K} {k : Nat} :
    w.covers k = true ↔ w.start ≤ k ∧ k < w.start + w.planes := by
  simp [covers]

variable [Scalar K]

/-! ## Faithful windows -/

/-- Some planes of the lattice, with the values of a fresh sample. -/
structure Faithful (w : Window K) : Prop where
  planes_pos : 0 < w.planes
  fits : w.start + w.planes ≤ w.lattice.nz
  values_eq : w.values = sample w.solid w.lattice w.start w.planes

/-- The window from plane `s` on, sampled anew. -/
def restarted (w : Window K) (s : Nat) : Window K :=
  { w with start := s, values := sample w.solid w.lattice s w.planes }

theorem Faithful.restart {w : Window K} (hw : w.Faithful) {s : Nat}
    (hs : s + w.planes ≤ w.lattice.nz) : (w.restarted s).Faithful :=
  ⟨hw.planes_pos, hs, rfl⟩

theorem Faithful.position_lt {w : Window K} (hw : w.Faithful) {i j k : Nat} (hi : i < w.lattice.nx)
    (hj : j < w.lattice.ny) (hk : w.covers k = true) : w.position i j k < w.values.size := by
  obtain ⟨hk, hk'⟩ := covers_iff.1 hk
  rw [hw.values_eq, size_sample]
  exact Window.position_lt w.lattice hi hj (by omega)

theorem Faithful.value_eq {w : Window K} (hw : w.Faithful) {i j k : Nat} (hi : i < w.lattice.nx)
    (hj : j < w.lattice.ny) (hk : w.covers k = true) :
    w.value i j k = w.solid.contains (w.lattice.corner i j k) := by
  obtain ⟨hk, hk'⟩ := covers_iff.1 hk
  rw [value, hw.values_eq, position, getD_sample w.solid w.lattice hi hj (by omega)]
  rw [show w.start + (k - w.start) = k by omega]

/-! ## Moving -/

/-- The planes that a move samples: the first one and how many. -/
def freshPlanes (w : Window K) (s : Nat) : Nat × Nat :=
  if w.start < s then
    (s + (w.planes - (s - w.start)), w.planes - (w.planes - (s - w.start)))
  else (s, w.planes - (w.planes - (w.start - s)))

/-- A move samples what the window covers afterwards and did not cover before. -/
theorem mem_freshPlanes {w : Window K} {s k : Nat} :
    ((w.freshPlanes s).1 ≤ k ∧ k < (w.freshPlanes s).1 + (w.freshPlanes s).2) ↔
      (w.restarted s).covers k = true ∧ ¬w.covers k = true := by
  rw [covers_iff, covers_iff]
  show _ ↔ (s ≤ k ∧ k < s + w.planes) ∧ _
  unfold freshPlanes
  split <;> omega

/-- The first stray point of the planes that a move samples. -/
def freshStray? (w : Window K) (s : Nat) : Option (Vec3 K) :=
  w.lattice.firstStray? w.solid (w.freshPlanes s).1 (w.freshPlanes s).2

/-- The values after a move upward: the upper planes are kept and come first. -/
theorem Faithful.moved_up {w : Window K} (hw : w.Faithful) {s : Nat} (hs : w.start < s) :
    let kept := w.planes - (s - w.start)
    w.values.extract ((w.planes - kept) * (w.lattice.nx * w.lattice.ny)) ++
        sample w.solid w.lattice (s + kept) (w.planes - kept) =
      sample w.solid w.lattice s w.planes := by
  intro kept
  have hsplit : w.planes = (w.planes - kept) + kept := by omega
  have hvalues : w.values = sample w.solid w.lattice w.start ((w.planes - kept) + kept) := by
    rw [← hsplit]; exact hw.values_eq
  have hkept : sample w.solid w.lattice (w.start + (w.planes - kept)) kept =
      sample w.solid w.lattice s kept := by
    by_cases h0 : kept = 0
    · rw [h0, sample_zero, sample_zero]
    · rw [show w.start + (w.planes - kept) = s by omega]
  rw [hvalues, extract_sample_upper, hkept, ← sample_add]
  rw [show kept + (w.planes - kept) = w.planes by omega]

/-- The values after a move downward: the lower planes are kept and come last. -/
theorem Faithful.moved_down {w : Window K} (hw : w.Faithful) {s : Nat} (hs : s ≤ w.start) :
    let kept := w.planes - (w.start - s)
    sample w.solid w.lattice s (w.planes - kept) ++
        w.values.extract 0 (kept * (w.lattice.nx * w.lattice.ny)) =
      sample w.solid w.lattice s w.planes := by
  intro kept
  have hsplit : w.planes = kept + (w.planes - kept) := by omega
  have hvalues : w.values = sample w.solid w.lattice w.start (kept + (w.planes - kept)) := by
    rw [← hsplit]; exact hw.values_eq
  have hkept : sample w.solid w.lattice w.start kept =
      sample w.solid w.lattice (s + (w.planes - kept)) kept := by
    by_cases h0 : kept = 0
    · rw [h0, sample_zero, sample_zero]
    · rw [show s + (w.planes - kept) = w.start by omega]
  rw [hvalues, extract_sample_lower, hkept, ← sample_add]
  rw [show w.planes - kept + kept = w.planes by omega]

/-- **A move samples only what is new and leaves what sampling everything would.** -/
theorem Faithful.moveTo_eq {w : Window K} (hw : w.Faithful) (s : Nat) :
    w.moveTo s = (verdict (w.freshStray? s), w.restarted s) := by
  unfold moveTo freshStray? freshPlanes restarted
  split
  · rename_i hs
    simp only [checkBorder_sample, hw.moved_up hs]
  · rename_i hs
    simp only [checkBorder_sample, hw.moved_down (Nat.le_of_not_lt hs)]

/-- The window that has a plane of the lattice in its middle covers it and stays in the lattice. -/
theorem Faithful.centered_spec {w : Window K} (hw : w.Faithful) {k : Nat} (hk : k < w.lattice.nz) :
    w.centered k + w.planes ≤ w.lattice.nz ∧ (w.restarted (w.centered k)).covers k = true := by
  have hpos := hw.planes_pos
  have hfits := hw.fits
  rw [covers_iff]
  show _ ∧ w.centered k ≤ k ∧ k < w.centered k + w.planes
  unfold centered
  omega

/-! ## One question -/

/-- The answer to a question, and the window afterwards. -/
def ask (w : Window K) (i j k : Nat) : Except (Error K) Bool × Window K :=
  (Window.get i j k).run.run w

/-- A question reads the window that covering its plane leaves. -/
theorem ask_of_cover_ok {w w' : Window K} {k : Nat}
    (h : (cover k : Sampling K Unit) w = (.ok (), w')) (i j : Nat) :
    w.ask i j k = (.ok (w'.value i j k), w') := by
  simp only [ask, Window.get, ExceptT.run_bind, StateT.run_bind]
  rw [show StateT.run (ExceptT.run (cover k)) w = (.ok (), w') from h]
  rfl

theorem ask_of_cover_error {w w' : Window K} {k : Nat} {e : Error K}
    (h : (cover k : Sampling K Unit) w = (.error e, w')) (i j : Nat) :
    w.ask i j k = (.error e, w') := by
  simp only [ask, Window.get, ExceptT.run_bind, StateT.run_bind]
  rw [show StateT.run (ExceptT.run (cover k)) w = (.error e, w') from h]
  rfl

theorem ask_of_covers {w : Window K} {k : Nat} (h : w.covers k = true) (i j : Nat) :
    w.ask i j k = (.ok (w.value i j k), w) :=
  ask_of_cover_ok (if_pos h) i j

theorem Faithful.cover_eq {w : Window K} (hw : w.Faithful) {k : Nat} (h : ¬w.covers k = true) :
    (cover k : Sampling K Unit) w =
      (verdict (w.freshStray? (w.centered k)), w.restarted (w.centered k)) := by
  rw [← hw.moveTo_eq]
  exact if_neg h

theorem Faithful.ask_of_freshStray {w : Window K} (hw : w.Faithful) {k : Nat}
    (h : ¬w.covers k = true) {p : Vec3 K} (hp : w.freshStray? (w.centered k) = some p) (i j : Nat) :
    w.ask i j k = (.error (.solidOutsideBounds p), w.restarted (w.centered k)) :=
  ask_of_cover_error (by rw [hw.cover_eq h, hp]; rfl) i j

theorem Faithful.ask_of_freshStray_eq_none {w : Window K} (hw : w.Faithful) {k : Nat}
    (h : ¬w.covers k = true) (hp : w.freshStray? (w.centered k) = none) (i j : Nat) :
    w.ask i j k =
      (.ok ((w.restarted (w.centered k)).value i j k), w.restarted (w.centered k)) :=
  ask_of_cover_ok (by rw [hw.cover_eq h, hp]; rfl) i j

/-- Whether some plane that a window covers and an earlier one did not has a stray point. -/
def NewStray (w w' : Window K) : Prop :=
  ∃ k, w'.covers k = true ∧ ¬w.covers k = true ∧ w.lattice.HasStray w.solid k

theorem freshStray?_eq_none_iff {w : Window K} {s : Nat} :
    w.freshStray? s = none ↔ ¬w.NewStray (w.restarted s) := by
  rw [freshStray?, Lattice.firstStray?_eq_none_iff]
  constructor
  · rintro h ⟨k, hk, hk', hs⟩
    obtain ⟨h1, h2⟩ := mem_freshPlanes.2 ⟨hk, hk'⟩
    exact h k h1 h2 hs
  · intro h k h1 h2 hs
    obtain ⟨hk, hk'⟩ := mem_freshPlanes.1 ⟨h1, h2⟩
    exact h ⟨k, hk, hk', hs⟩

/-- What the answer to a question about `(i, j, k)` is, and what window it leaves behind. -/
structure Serves (w : Window K) (i j k : Nat) (answer : Except (Error K) Bool) (w' : Window K) :
    Prop where
  /-- The window afterwards has its planes in the lattice and covers the one asked for. -/
  covers : w'.covers k = true
  fits : w'.start + w'.planes ≤ w'.lattice.nz
  same : w'.solid = w.solid ∧ w'.lattice = w.lattice ∧ w'.planes = w.planes
  /-- A window that covers the plane does not move. -/
  stays : w.covers k = true → w' = w
  /-- The value is read inside the array. -/
  position_lt : w'.position i j k < w'.values.size
  /-- An answer is the membership of the point. -/
  answer_eq : ∀ b, answer = .ok b → b = w.solid.contains (w.lattice.corner i j k)
  /-- There is none exactly when the window had to move and met a stray point in a new plane. -/
  fails_iff : (∃ e, answer = .error e) ↔ ¬w.covers k = true ∧ w.NewStray w'
  /-- The error names a stray point of a new plane. -/
  error_eq : ∀ e, answer = .error e → ∃ i' j' k', i' < w.lattice.nx ∧ j' < w.lattice.ny ∧
    w'.covers k' = true ∧ ¬w.covers k' = true ∧ w.lattice.isBorder i' j' k' = true ∧
    w.solid.contains (w.lattice.corner i' j' k') = true ∧
    e = .solidOutsideBounds (w.lattice.corner i' j' k')
  /-- With or without an answer, all values are those of a direct sample. -/
  values_eq : ∀ i' j' k', i' < w.lattice.nx → j' < w.lattice.ny → w'.covers k' = true →
    w'.value i' j' k' = w.solid.contains (w.lattice.corner i' j' k')

/-- **One question to a faithful window.** -/
theorem Faithful.ask_serves {w : Window K} (hw : w.Faithful) {i j k : Nat} (hi : i < w.lattice.nx)
    (hj : j < w.lattice.ny) (hk : k < w.lattice.nz) :
    (w.ask i j k).2.Faithful ∧ w.Serves i j k (w.ask i j k).1 (w.ask i j k).2 := by
  by_cases hc : w.covers k = true
  · rw [ask_of_covers hc]
    refine ⟨hw, hc, hw.fits, ⟨rfl, rfl, rfl⟩, fun _ => rfl, hw.position_lt hi hj hc, ?_, ?_, ?_,
      fun _ _ _ hi' hj' => hw.value_eq hi' hj'⟩
    · rintro b ⟨⟩
      exact hw.value_eq hi hj hc
    · refine ⟨?_, fun h => absurd hc h.1⟩
      rintro ⟨e, ⟨⟩⟩
    · rintro e ⟨⟩
  · obtain ⟨hfits, hcovers⟩ := hw.centered_spec hk
    have hw' := hw.restart hfits
    have hvalues : ∀ i' j' k', i' < w.lattice.nx → j' < w.lattice.ny →
        (w.restarted (w.centered k)).covers k' = true →
        (w.restarted (w.centered k)).value i' j' k' =
          w.solid.contains (w.lattice.corner i' j' k') := fun _ _ _ hi' hj' => hw'.value_eq hi' hj'
    cases hp : w.freshStray? (w.centered k) with
    | none =>
      rw [hw.ask_of_freshStray_eq_none hc hp]
      refine ⟨hw', hcovers, hfits, ⟨rfl, rfl, rfl⟩, fun h => absurd h hc,
        hw'.position_lt hi hj hcovers, ?_, ?_, ?_, hvalues⟩
      · rintro b ⟨⟩
        exact hvalues i j k hi hj hcovers
      · refine ⟨?_, fun h => absurd h.2 (freshStray?_eq_none_iff.1 hp)⟩
        rintro ⟨e, ⟨⟩⟩
      · rintro e ⟨⟩
    | some p =>
      rw [hw.ask_of_freshStray hc hp]
      obtain ⟨i', j', k', hi', hj', h1, h2, hb, hin, rfl⟩ := Lattice.firstStray?_eq_some hp
      obtain ⟨hk', hk''⟩ := mem_freshPlanes.1 ⟨h1, h2⟩
      refine ⟨hw', hcovers, hfits, ⟨rfl, rfl, rfl⟩, fun h => absurd h hc,
        hw'.position_lt hi hj hcovers, ?_, ?_, ?_, hvalues⟩
      · rintro b ⟨⟩
      · exact ⟨fun _ => ⟨hc, k', hk', hk'', i', j', hi', hj', hb, hin⟩, fun _ => ⟨_, rfl⟩⟩
      · rintro e ⟨⟩
        exact ⟨i', j', k', hi', hj', hk', hk'', hb, hin, rfl⟩

/-! ## Every sequence of questions -/

/-- The answers to a sequence of questions, and the window afterwards. A question that fails does not
end the sequence. -/
def askAll (w : Window K) : List (Nat × Nat × Nat) → List (Except (Error K) Bool) × Window K
  | [] => ([], w)
  | (i, j, k) :: rest =>
    let next := w.ask i j k
    let later := next.2.askAll rest
    (next.1 :: later.1, later.2)

/-- No plane of the window has a stray point. -/
def Clean (w : Window K) : Prop := ∀ k, w.covers k = true → ¬w.lattice.HasStray w.solid k

theorem Serves.clean {w w' : Window K} {i j k : Nat} {answer : Except (Error K) Bool}
    (h : w.Serves i j k answer w') (hw : w.Clean) (hok : ∃ b, answer = .ok b) : w'.Clean := by
  intro k' hk' hs
  rw [h.same.1, h.same.2.1] at hs
  by_cases hc : w.covers k = true
  · rw [h.stays hc] at hk'
    exact hw k' hk' hs
  · by_cases hk : w.covers k' = true
    · exact hw k' hk hs
    · obtain ⟨e, he⟩ := h.fails_iff.2 ⟨hc, k', hk', hk, hs⟩
      obtain ⟨b, hb⟩ := hok
      rw [hb] at he
      cases he

/-- **What every sequence of questions keeps.** -/
theorem Faithful.askAll_inv {calls : List (Nat × Nat × Nat)} {w : Window K} (hw : w.Faithful)
    (hcalls : ∀ c ∈ calls, c.1 < w.lattice.nx ∧ c.2.1 < w.lattice.ny ∧ c.2.2 < w.lattice.nz) :
    let run := w.askAll calls
    run.2.Faithful ∧ run.2.solid = w.solid ∧ run.2.lattice = w.lattice ∧ run.2.planes = w.planes ∧
      (w.Clean → (∀ a ∈ run.1, ∃ b, a = .ok b) → run.2.Clean) := by
  induction calls generalizing w with
  | nil => exact ⟨hw, rfl, rfl, rfl, fun h _ => h⟩
  | cons c rest ih =>
    obtain ⟨i, j, k⟩ := c
    obtain ⟨hi, hj, hk⟩ := hcalls (i, j, k) List.mem_cons_self
    obtain ⟨hnext, hserves⟩ := hw.ask_serves hi hj hk
    have hlattice : (w.ask i j k).2.lattice = w.lattice := hserves.same.2.1
    obtain ⟨hlast, hsolid, hlat, hplanes, hclean⟩ := ih hnext (by
      rw [hlattice]
      exact fun c hc => hcalls c (List.mem_cons_of_mem _ hc))
    refine ⟨hlast, hsolid.trans hserves.same.1, hlat.trans hlattice,
      hplanes.trans hserves.same.2.2, fun hw hok => ?_⟩
    obtain ⟨hfirst, hrest⟩ := List.forall_mem_cons.1 hok
    exact hclean (hserves.clean hw hfirst) hrest

/-! ## The first window -/

/-- The number of planes of a window: at least one and at most all. -/
def planeCount (l : Lattice K) (planes : Nat) : Nat := max 1 (min planes l.nz)

/-- The window on the first planes of a lattice. -/
def first (solid : Solid K) (l : Lattice K) (planes : Nat) : Window K :=
  ⟨solid, l, planeCount l planes, 0, sample solid l 0 (planeCount l planes)⟩

theorem faithful_first {solid : Solid K} {l : Lattice K} (hz : 0 < l.nz) (planes : Nat) :
    (first solid l planes).Faithful := by
  refine ⟨?_, ?_, rfl⟩
  · show 0 < planeCount l planes
    unfold planeCount
    omega
  · show 0 + planeCount l planes ≤ l.nz
    unfold planeCount
    omega

/-- How a window begins: its size is checked, then the border points of its planes. -/
theorem onto_eq (solid : Solid K) (l : Lattice K) (planes : Nat) :
    onto solid l planes =
      if Lattice.countLimit ≤ l.nx * l.ny * planeCount l planes then
        .error (.parameter (.windowTooLarge (planeCount l planes)))
      else if allocationLimit ≤ l.nx * l.ny * planeCount l planes then
        .error (.parameter .windowNotAllocatable)
      else
        match l.firstStray? solid 0 (planeCount l planes) with
        | some p => .error (.solidOutsideBounds p)
        | none => .ok (first solid l planes) := by
  unfold onto
  simp only [checkBorder_sample]
  show (if Lattice.countLimit ≤ l.nx * l.ny * planeCount l planes then _ else _) = _
  split
  · rfl
  · show (if allocationLimit ≤ l.nx * l.ny * planeCount l planes then _ else _) = _
    split
    · rfl
    · show (verdict (l.firstStray? solid 0 (planeCount l planes)) >>= _) = _
      cases l.firstStray? solid 0 (planeCount l planes) <;> rfl

theorem onto_eq_ok {solid : Solid K} {l : Lattice K} {planes : Nat} {w : Window K}
    (h : onto solid l planes = .ok w) :
    w = first solid l planes ∧ l.firstStray? solid 0 (planeCount l planes) = none := by
  rw [onto_eq] at h
  split at h
  · cases h
  · split at h
    · cases h
    · split at h
      · cases h
      · rename_i hs
        cases h
        exact ⟨rfl, hs⟩

theorem clean_first {solid : Solid K} {l : Lattice K} {planes : Nat}
    (h : l.firstStray? solid 0 (planeCount l planes) = none) : (first solid l planes).Clean :=
  fun k hk => Lattice.firstStray?_eq_none_iff.1 h k (covers_iff.1 hk).1 (covers_iff.1 hk).2

/-- **A window never serves a stale value.** After any sequence of questions about points of the
lattice, answered or failed, the window lies in the lattice and the next question is served from
directly sampled values; as long as none has failed, all border points in the window are outside. -/
theorem asked_window_never_stale {box : Bounds K} {delta : K} {l : Lattice K} {solid : Solid K}
    {planes : Nat} {w₀ : Window K} (hl : Lattice.around box delta = .ok l)
    (hw : onto solid l planes = .ok w₀) {calls : List (Nat × Nat × Nat)}
    (hcalls : ∀ c ∈ calls, c.1 < l.nx ∧ c.2.1 < l.ny ∧ c.2.2 < l.nz) {i j k : Nat} (hi : i < l.nx)
    (hj : j < l.ny) (hk : k < l.nz) :
    let answers := (w₀.askAll calls).1
    let w := (w₀.askAll calls).2
    w.solid = solid ∧ w.lattice = l ∧ w.planes = max 1 (min planes l.nz) ∧
      w.start + w.planes ≤ l.nz ∧ w.Serves i j k (w.ask i j k).1 (w.ask i j k).2 ∧
      ((∀ a ∈ answers, ∃ b, a = .ok b) → ∀ i' j' k', i' < l.nx → j' < l.ny → w.covers k' = true →
        l.isBorder i' j' k' = true → solid.contains (l.corner i' j' k') = false) := by
  obtain ⟨rfl, hclean⟩ := onto_eq_ok hw
  obtain ⟨_, _, hz⟩ := Lattice.three_le_of_around hl
  have hfirst : (first solid l planes).Faithful := faithful_first (by omega) planes
  obtain ⟨hf, hsolid, hlattice, hplanes, hkeeps⟩ := hfirst.askAll_inv hcalls
  intro answers w
  have hsolid : w.solid = solid := hsolid
  have hlattice : w.lattice = l := hlattice
  obtain ⟨_, hserves⟩ := hf.ask_serves (i := i) (j := j) (k := k) (by rwa [hlattice])
    (by rwa [hlattice]) (by rwa [hlattice])
  refine ⟨hsolid, hlattice, hplanes, hlattice ▸ hf.fits, hserves, fun hok i' j' k' hi' hj' hk' hb => ?_⟩
  have hnone := hkeeps (clean_first hclean) hok k' hk'
  rw [hsolid, hlattice] at hnone
  cases hc : solid.contains (l.corner i' j' k') with
  | false => rfl
  | true => exact absurd ⟨i', j', hi', hj', hb, hc⟩ hnone

/-! ## A window that fails and goes on -/

/-- The lattice with cells of one over a box of height two and no width. -/
def tower : Isomesh.Lattice ℚ := ⟨⟨-1, -1, -1⟩, 1, 3, 3, 5⟩

/-- The point `(0, 0, 0)` and, outside of its box, points on the border of the third plane. -/
def straying : Solid ℚ where
  bounds := ⟨⟨0, 0, 0⟩, ⟨0, 0, 2⟩⟩
  contains p := p = ⟨0, 0, 0⟩ || p.x = 1 && p.z = 1

theorem onto_tower : onto straying tower 2 = .ok (first straying tower 2) := by
  rw [onto_eq, if_neg (by decide), if_neg (by decide),
    show tower.firstStray? straying 0 (planeCount tower 2) = none by decide +kernel]

/-- A window of two planes moves to the top, then down, where it meets a stray point, and answers
the next question without another move. -/
theorem straying_window_never_stale :
    let run := (first straying tower 2).askAll [(1, 1, 4), (0, 0, 2)]
    run.1 = [.ok false, .error (.solidOutsideBounds ⟨1, -1, 1⟩)] ∧
      (run.2.start, run.2.planes) = (1, 2) ∧ (run.2.ask 1 1 1).1 = .ok true ∧
      run.2.Serves 1 1 1 (run.2.ask 1 1 1).1 (run.2.ask 1 1 1).2 := by
  have hl : Lattice.around straying.bounds 1 = .ok tower := by decide +kernel
  have hcalls : ∀ c ∈ [(1, 1, 4), (0, 0, 2)], c.1 < tower.nx ∧ c.2.1 < tower.ny ∧ c.2.2 < tower.nz := by
    decide
  refine ⟨by decide +kernel, by decide +kernel, by decide +kernel, ?_⟩
  exact (asked_window_never_stale (i := 1) (j := 1) (k := 1) hl onto_tower hcalls (by decide)
    (by decide) (by decide)).2.2.2.2.1

end Isomesh.Window
