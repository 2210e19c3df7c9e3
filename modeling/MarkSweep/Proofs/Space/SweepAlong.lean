import MarkSweep.Proofs.Space.Sweep
/-!
# The walk and the sweep in step

A sweep sets bits of free chunks while the walk that it follows still reads them.  It sets them only behind the walk, and
a walk reads them only ahead, so it makes no difference whether the walk is made first (`Regular.sweep_eq_along`).
-/
namespace MarkSweep

/-- Sweeps on from `cur` for at most `n` extents, each of them looked up in the space as the sweep has left it by then.
Gives the fault that stopped the sweep before the end of the space. -/
def Sweep.along (m : Memory) (live : Bitmap) : Nat → Address → Sweep → Option Fault × Sweep
  | 0, _, w => (none, w)
  | n + 1, cur, w =>
    if cur < w.space.region.stop then
      match w.space.extentAt m cur with
      | .error f => (some f, w)
      | .ok e => along m live n (cur + e.words * wordBytes) (w.step live e)
    else (none, w)

namespace Space

variable {s : Space} {m : Memory} {w : Sweep} {k : Nat} {t : Tile}

theorem SameGrid.extent {s s' : Space} (h : s.SameGrid s') (t : Tile) : s'.extent t = s.extent t := by
  rw [Space.extent, Space.extent, h.address, h.2]

/-- What a walk meets at a tile does not depend on the bits behind it. -/
theorem Meets.congr {s' : Space} (h : s.Meets m t) (hgrid : s.SameGrid s')
    (hbits : ∀ i, t.first ≤ i → s'.freeChunks.testBit i = s.freeChunks.testBit i) : s'.Meets m t where
  count_pos := h.count_pos
  stop_le := by rw [hgrid.granules]; exact h.stop_le
  bits hfree i hi := by rw [hbits i hi.1]; exact h.bits hfree i hi
  bit_stop hfree hlt := by
    rw [hbits t.stop (Nat.le_add_right _ _)]
    exact h.bit_stop hfree (by rwa [hgrid.granules] at hlt)
  bit_first hfree := by rw [hbits _ (Nat.le_refl _)]; exact h.bit_first hfree
  headed hfree := hgrid.headed (h.headed hfree)

/-- All that the sweep `w` of space `s` has made by granule `k`, and the run that it stands at, lies behind `k`. -/
def Trails (s : Space) (w : Sweep) (k : Nat) : Prop :=
  ∃ closed run, s.Sweeping w closed run ∧ ∀ t ∈ closed ++ run.toList, t.stop ≤ k

namespace Trails

theorem start (s : Space) : s.Trails (Sweep.start s) 0 := ⟨[], none, .start s, List.forall_mem_nil _⟩

theorem grid (h : s.Trails w k) : s.SameGrid w.space := by
  obtain ⟨_, _, hw, -⟩ := h
  exact hw.grid

theorem regular (h : s.Trails w k) (hs : s.Regular) : w.space.Regular := by
  obtain ⟨_, _, hw, -⟩ := h
  exact hw.regular hs

/-- The sweep leaves the bits ahead alone. -/
theorem testBit_eq (h : s.Trails w k) {i : Nat} (hi : k ≤ i) :
    w.space.freeChunks.testBit i = s.freeChunks.testBit i := by
  obtain ⟨closed, run, hw, hbehind⟩ := h
  rw [Bool.eq_iff_iff, hw.bits i]
  refine or_iff_left ?_
  rintro ⟨t, ht, hcov⟩
  have := hbehind t (List.mem_append_left _ ht)
  unfold Tile.Covers at hcov
  omega

theorem step (h : s.Trails w t.first) (hs : s.Regular) (live : Bitmap) :
    s.Trails (w.step live (s.extent t)) t.stop := by
  obtain ⟨closed, run, hw, hbehind⟩ := h
  have hle {u : Tile} (hu : u ∈ closed ++ run.toList) : u.stop ≤ t.stop :=
    Nat.le_trans (hbehind u hu) (Nat.le_add_right _ _)
  cases hk : s.keeps live t with
  | true =>
    refine ⟨_, _, (hw.step hs live t).1 hk, fun u hu => hle ?_⟩
    rwa [Option.toList_none, List.append_nil] at hu
  | false =>
    refine ⟨_, _, (hw.step hs live t).2 hk, fun u hu => ?_⟩
    rcases List.mem_append.1 hu with hu | hu
    · exact hle (List.mem_append_left _ hu)
    obtain rfl : u = extendedRun run t := by simpa using hu
    cases run with
    | none => exact Nat.le_refl _
    | some r =>
      have := hbehind r (by simp)
      unfold extendedRun Tile.stop at *
      simp only
      omega

theorem extentAt_meets (h : s.Trails w t.first) (hs : s.Regular) (ht : s.Meets m t) :
    w.space.extentAt m (s.address t.first) = .ok (s.extent t) := by
  have := (ht.congr h.grid fun i hi => h.testBit_eq hi).extentAt_eq (h.regular hs)
  rwa [h.grid.address, h.grid.extent] at this

theorem extentAt_overruns (h : s.Trails w k) (hs : s.Regular) (hk : s.Overruns m k) :
    w.space.extentAt m (s.address k) = .error (.objectPastEnd (s.address k) (Object.size m (s.address k))) := by
  have hover : w.space.Overruns m k := by
    refine ⟨by rw [h.grid.granules]; exact hk.lt, by rw [h.testBit_eq (Nat.le_refl k)]; exact hk.bit, ?_⟩
    rw [h.grid.granules, h.grid.2, h.grid.address]
    exact hk.size
  have := hover.extentAt_eq (h.regular hs)
  rwa [h.grid.address] at this

/-- A sweep that looks up its extents as it goes takes the tiles that a walk made before it would meet. -/
theorem along_tiles (hs : s.Regular) (live : Bitmap) (n : Nat) : ∀ {ts : List Tile} {lo hi : Nat} {w : Sweep},
    s.Trails w lo → Tiling lo ts hi → (∀ t ∈ ts, s.Meets m t) →
      ∃ w', w' = (ts.map s.extent).foldl (Sweep.step live) w ∧ s.Trails w' hi ∧
        Sweep.along m live (ts.length + n) (s.address lo) w = Sweep.along m live n (s.address hi) w'
  | [], lo, hi, w, h, hlo, _ => by
    obtain rfl : lo = hi := hlo
    exact ⟨w, rfl, h, by rw [List.length_nil, Nat.zero_add]⟩
  | t :: ts, lo, hi, w, h, ⟨hlo, _, hrest⟩, hts => by
    subst hlo
    have ht := hts t (by simp)
    obtain ⟨w', hw', htrails, hrun⟩ :=
      along_tiles hs live n (h.step hs live) hrest fun u hu => hts u (by simp [hu])
    refine ⟨w', hw', htrails, ?_⟩
    rw [List.length_cons, Nat.add_right_comm, Sweep.along,
      if_pos (by rw [h.grid.1, hs.stop_eq]; exact hs.address_lt.2 ht.first_lt), h.extentAt_meets hs ht]
    simp only
    rw [extent_words, address_add_words, ← Tile.stop, hrun]

end Trails

/-- **The walk can be made before the sweep or along with it**: the extents are the same, and so is what is left. -/
theorem Regular.sweep_eq_along (hs : s.Regular) (m : Memory) (live : Bitmap) :
    s.sweep m live = match Sweep.along m live s.granules s.region.start (Sweep.start s) with
      | (some f, w) => (.error f, w.space)
      | (none, w) => (.ok w.closeRun.stats, w.closeRun.space) := by
  obtain ⟨ts, stop, htile, hts, hend⟩ := hs.walk_cases m
  have hlen := htile.length_add_le
  rw [← address_zero, sweep]
  rcases hend with ⟨rfl, hwalk⟩ | ⟨hover, hwalk⟩
  · have hw : s.walk m = _ := hwalk _ (Nat.le_refl _)
    obtain ⟨n, hn⟩ := Nat.exists_eq_add_of_le (show ts.length ≤ s.granules by omega)
    obtain ⟨w, rfl, htrails, hrun⟩ := Trails.along_tiles hs live n (.start s) htile hts
    have hstop : Sweep.along m live n (s.address s.granules) ((ts.map s.extent).foldl (Sweep.step live) (Sweep.start s)) =
        (none, (ts.map s.extent).foldl (Sweep.step live) (Sweep.start s)) := by
      cases n with
      | zero => rfl
      | succ n => rw [Sweep.along, if_neg (by rw [htrails.grid.1, hs.stop_eq]; exact Nat.lt_irrefl _)]
    rw [hw, hn, hrun, hstop]
  · have hw : s.walk m = _ := hwalk _ (Nat.le_refl _)
    have hlt := hover.lt
    obtain ⟨n, hn⟩ := Nat.exists_eq_add_of_le (show ts.length + 1 ≤ s.granules by omega)
    rw [Nat.add_right_comm, Nat.add_assoc] at hn
    obtain ⟨w, rfl, htrails, hrun⟩ := Trails.along_tiles hs live (n + 1) (.start s) htile hts
    rw [hw, hn, hrun, Sweep.along, htrails.extentAt_overruns hs hover,
      if_pos (by rw [htrails.grid.1, hs.stop_eq]; exact hs.address_lt.2 hlt)]

theorem Regular.along_eq (hs : s.Regular) {live : Bitmap} {stats : SweepStats} {s' : Space}
    (hsweep : s.sweep m live = (.ok stats, s')) :
    ∃ w, Sweep.along m live s.granules s.region.start (Sweep.start s) = (none, w) ∧ w.closeRun.stats = stats ∧
      w.closeRun.space = s' := by
  have halong := hs.sweep_eq_along m live
  rw [hsweep] at halong
  generalize Sweep.along m live s.granules s.region.start (Sweep.start s) = r at halong
  obtain ⟨f, w⟩ := r
  cases f with
  | some f => cases halong
  | none =>
    cases halong
    exact ⟨w, rfl, rfl, rfl⟩

end Space
end MarkSweep
