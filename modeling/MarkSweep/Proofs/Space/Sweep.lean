import MarkSweep.Proofs.Space.Walk
/-!
# What a sweep leaves

A sweep keeps the marked tiles and merges everything between them into free tiles (`merged`).  `Tiled.sweep_spec` says
that the list and the bitmap of the swept space agree on exactly these, and what the counters count.
-/
namespace MarkSweep

/-- The run of free granules grows by a tile. -/
def extendedRun : Option Tile → Tile → Tile
  | none, t => ⟨.free, t.first, t.count⟩
  | some r, t => ⟨.free, r.first, r.count + t.count⟩

/-- What tiles become when only the kept ones stay and all between them merges; `run` is the run that leads up to
them. -/
def merged (keep : Tile → Bool) : Option Tile → List Tile → List Tile
  | run, [] => run.toList
  | run, t :: ts =>
    if keep t then run.toList ++ t :: merged keep none ts else merged keep (some (extendedRun run t)) ts

theorem extendedRun_isFree (run : Option Tile) (t : Tile) : (extendedRun run t).IsFree := by
  cases run <;> rfl

section Merged

variable {keep : Tile → Bool}

theorem Tiling.merged : ∀ {ts : List Tile} {run : Option Tile} {lo hi : Nat}, Tiling lo (run.toList ++ ts) hi →
    Tiling lo (merged keep run ts) hi
  | [], run, lo, hi, h => by rwa [List.append_nil] at h
  | t :: ts, run, lo, hi, h => by
    rw [MarkSweep.merged]
    split
    · obtain ⟨mid, hrun, hfirst, hpos, hrest⟩ := append_iff.1 h
      have htail : Tiling t.stop (MarkSweep.merged keep none ts) hi :=
        Tiling.merged (show Tiling t.stop (Option.toList none ++ ts) hi from hrest)
      exact append_iff.2 ⟨mid, hrun, hfirst, hpos, htail⟩
    · apply Tiling.merged
      cases run with
      | none => exact h
      | some r =>
        obtain ⟨hr, hrpos, ht, htpos, hrest⟩ := h
        refine ⟨hr, Nat.add_pos_left hrpos _, ?_⟩
        have hstop : (extendedRun (some r) t).stop = t.stop := by
          unfold Tile.stop at *
          simp only [extendedRun]
          omega
        rw [hstop]
        exact hrest

theorem separated_merged (hkeep : ∀ t, keep t = true → ¬t.IsFree) : ∀ (ts : List Tile) (run : Option Tile),
    Separated (merged keep run ts)
  | [], run => by cases run <;> simp [merged, Separated]
  | t :: ts, run => by
    rw [merged]
    split
    · next hk =>
      have ht := hkeep t hk
      refine separated_append.2 ⟨by cases run <;> simp [Separated], ?_, ?_⟩
      · exact separated_cons.2 ⟨fun _ _ hf => ht hf.1, separated_merged hkeep ts none⟩
      · intro _ _ u hu hf
        rw [List.head?_cons, Option.mem_some] at hu
        exact ht (hu ▸ hf.2)
    · exact separated_merged hkeep ts _

/-- The tiles in use after a merge are the kept ones, in order. -/
theorem filter_merged (hkeep : ∀ t, keep t = true → ¬t.IsFree) : ∀ (ts : List Tile) (run : Option Tile),
    (∀ r ∈ run, r.IsFree) → usedTiles (merged keep run ts) = ts.filter keep
  | [], run, hrun => List.filter_eq_nil_iff.2 fun r hr => by simpa using hrun r (by simpa [merged] using hr)
  | t :: ts, run, hrun => by
    have hnone : run.toList.filter (fun t => !decide t.IsFree) = [] :=
      List.filter_eq_nil_iff.2 fun r hr => by simpa using hrun r (by simpa using hr)
    rw [merged]
    split
    · next hk =>
      rw [usedTiles, List.filter_append, hnone, List.filter_cons_of_pos (by simpa using hkeep t hk), List.filter_cons_of_pos hk,
        ← usedTiles, filter_merged hkeep ts none (fun _ h => by cases h)]
      rfl
    · next hk =>
      rw [List.filter_cons_of_neg hk, filter_merged hkeep ts _ fun r hr => by cases hr; exact extendedRun_isFree run t]

theorem mem_merged (hkeep : ∀ t, keep t = true → ¬t.IsFree) {u : Tile} {ts : List Tile} (hu : ¬u.IsFree) :
    u ∈ merged keep none ts ↔ u ∈ ts ∧ keep u = true := by
  rw [← List.mem_filter, ← filter_merged hkeep ts none (fun _ h => by cases h), mem_usedTiles]
  simp [hu]

end Merged

namespace Space

/-! ## The sweep under way -/

/-- `s'` is `s` with exactly the given tiles as its chunks; their bits are set beside those that were. -/
structure Rebuilt (s : Space) (tiles : List Tile) (s' : Space) : Prop where
  grid : s.SameGrid s'
  frame : s.freeChunks.SameFrame s'.freeChunks
  list : s'.list.Represents (tiles.map s.chunk)
  bits : ∀ i, s'.freeChunks.testBit i = true ↔ s.freeChunks.testBit i = true ∨ ∃ t ∈ tiles, t.Covers i

theorem Regular.congr {s s' : Space} (hs : s.Regular) (hgrid : s.SameGrid s')
    (hframe : s.freeChunks.SameFrame s'.freeChunks) : s'.Regular where
  granule_pos := by rw [hgrid.2]; exact hs.granule_pos
  granule_lt := by rw [hgrid.granuleBytes]; exact hs.granule_lt
  start_dvd := by rw [hgrid.granuleBytes, hgrid.1]; exact hs.start_dvd
  stop_eq := by rw [hgrid.address, hgrid.granules, hgrid.1]; exact hs.stop_eq
  stop_lt := by rw [hgrid.1]; exact hs.stop_lt
  covered := by rw [hframe.1, hgrid.1]; exact hs.covered
  bit_bytes := by rw [hframe.2.1, hgrid.granuleBytes]; exact hs.bit_bytes

theorem Rebuilt.regular {s s' : Space} {tiles : List Tile} (h : s.Rebuilt tiles s') (hs : s.Regular) : s'.Regular :=
  hs.congr h.grid h.frame

/-- The sweep `w` of space `s` has made the given tiles chunks and stands at the end of `run`. -/
structure Sweeping (s : Space) (w : Sweep) (closed : List Tile) (run : Option Tile) : Prop
    extends Rebuilt s closed w.space where
  run : w.run = run.map s.chunk

namespace Sweeping

variable {s : Space} {w : Sweep} {closed : List Tile} {run : Option Tile}

theorem start (s : Space) : s.Sweeping (Sweep.start s) [] none where
  grid := .refl s
  frame := ⟨rfl, rfl, rfl, rfl⟩
  list := FreeList.represents_clear s.list
  bits i := by simp [Sweep.start, clearChunks]
  run := rfl

theorem closeRun (hs : s.Regular) (h : s.Sweeping w closed run) : s.Sweeping w.closeRun (closed ++ run.toList) none := by
  unfold Sweep.closeRun
  cases run with
  | none =>
    rw [show w.run = none from h.run]
    simpa using h
  | some r =>
    rw [show w.run = some (s.chunk r) from h.run]
    have hcov : w.space.freeChunks.covered = s.region := h.frame.1.trans hs.covered
    have hbytes : w.space.freeChunks.granuleBytes = s.granuleBytes := h.frame.2.1.trans hs.bit_bytes
    have hframe := Bitmap.sameFrame_updateBits w.space.freeChunks true
      (w.space.freeChunks.bitOf (s.chunk r).start)
      (w.space.freeChunks.bitOf ((s.chunk r).start + (s.chunk r).words * wordBytes))
    refine ⟨⟨h.grid, ⟨hframe.1.trans h.frame.1, hframe.2.1.trans h.frame.2.1, hframe.2.2.1.trans h.frame.2.2.1,
      hframe.2.2.2.trans h.frame.2.2.2⟩, ?list, fun i => ?bits⟩, rfl⟩
    case list =>
      have := h.list.push (s.chunk r)
      simpa [addChunk] using this
    case bits =>
      have hstop : (s.chunk r).start + (s.chunk r).words * wordBytes = s.address r.stop := address_add_words s _ _
      simp only [addChunk, Bitmap.testBit_markRange, hstop]
      rw [show (s.chunk r).start = s.address r.first from rfl, hs.bitOf_address hcov hbytes,
        hs.bitOf_address hcov hbytes]
      have hold := h.bits i
      simp only [Bool.or_eq_true, decide_eq_true_eq, hold, Option.toList_some, List.mem_append, List.mem_singleton]
      constructor
      · rintro (hr | hr | ⟨t, ht, hc⟩)
        · exact .inr ⟨r, .inr rfl, hr⟩
        · exact .inl hr
        · exact .inr ⟨t, .inl ht, hc⟩
      · rintro (hr | ⟨t, ht | rfl, hc⟩)
        · exact .inr (.inl hr)
        · exact .inr (.inr ⟨t, ht, hc⟩)
        · exact .inl hc

theorem extendRun (h : s.Sweeping w closed run) (t : Tile) :
    s.Sweeping (w.extendRun (s.address t.first) (t.count * s.granuleWords)) closed (some (extendedRun run t)) := by
  unfold Sweep.extendRun
  cases run with
  | none =>
    rw [show w.run = none from h.run]
    exact ⟨h.toRebuilt, rfl⟩
  | some r =>
    rw [show w.run = some (s.chunk r) from h.run]
    exact ⟨h.toRebuilt, by simp [extendedRun, chunk, Nat.add_mul]⟩

theorem congr {w' : Sweep} (h : s.Sweeping w closed run) (hspace : w'.space = w.space) (hrun : w'.run = w.run) :
    s.Sweeping w' closed run :=
  ⟨hspace ▸ h.toRebuilt, hrun ▸ h.run⟩

end Sweeping

def keeps (s : Space) (live : Bitmap) (t : Tile) : Bool := !decide t.IsFree && live.isMarked (s.address t.first)

theorem not_isFree_of_keeps {s : Space} {live : Bitmap} {t : Tile} (h : s.keeps live t = true) : ¬t.IsFree := by
  unfold keeps at h
  simp only [Bool.and_eq_true, Bool.not_eq_true', decide_eq_false_iff_not] at h
  exact h.1

theorem SameGrid.keeps {s s' : Space} (h : s.SameGrid s') (live : Bitmap) : s'.keeps live = s.keeps live := by
  funext t
  rw [Space.keeps, Space.keeps, h.address]

theorem separated_keeps (s : Space) (live : Bitmap) (ts : List Tile) : Separated (merged (s.keeps live) none ts) :=
  separated_merged (fun _ => not_isFree_of_keeps) ts none

/-- **What one step of a sweep does**: a kept tile closes the run, and any other one extends it. -/
theorem Sweeping.step {s : Space} (hs : s.Regular) (live : Bitmap) (t : Tile) {w : Sweep} {closed : List Tile}
    {run : Option Tile} (h : s.Sweeping w closed run) :
    (s.keeps live t = true → s.Sweeping (w.step live (s.extent t)) (closed ++ run.toList) none) ∧
    (s.keeps live t = false → s.Sweeping (w.step live (s.extent t)) closed (some (extendedRun run t))) := by
  constructor
  · intro hk
    have ht := not_isFree_of_keeps hk
    have hm : live.isMarked (s.address t.first) = true := by
      unfold keeps at hk
      exact (Bool.and_eq_true_iff.1 hk).2
    refine (h.closeRun hs).congr ?_ ?_
    all_goals simp [Sweep.step, extent, ht, hm]
  · intro hk
    refine (h.extendRun t).congr ?_ ?_
    all_goals
      by_cases ht : t.IsFree
      · simp [Sweep.step, extent, ht]
      · have hm : live.isMarked (s.address t.first) = false := by
          unfold keeps at hk
          simpa [ht] using hk
        simp [Sweep.step, extent, ht, hm]

/-- **The sweep makes exactly the merged free tiles chunks.** -/
theorem Sweeping.foldl {s : Space} (hs : s.Regular) (live : Bitmap) : ∀ (ts : List Tile) {w : Sweep}
    {closed : List Tile} {run : Option Tile}, s.Sweeping w closed run → (∀ r ∈ run, r.IsFree) →
      s.Sweeping ((ts.map s.extent).foldl (Sweep.step live) w).closeRun
        (closed ++ freeTiles (merged (s.keeps live) run ts)) none
  | [], w, closed, run, h, hrun => by
    have hfree : freeTiles run.toList = run.toList :=
      List.filter_eq_self.2 fun r hr => by simpa using hrun r (by simpa using hr)
    rw [merged, hfree]
    exact h.closeRun hs
  | t :: ts, w, closed, run, h, hrun => by
    have hfree : freeTiles run.toList = run.toList :=
      List.filter_eq_self.2 fun r hr => by simpa using hrun r (by simpa using hr)
    rw [List.map_cons, List.foldl_cons, merged]
    cases hk : s.keeps live t with
    | true =>
      rw [if_pos rfl, freeTiles_append, hfree, freeTiles_cons_of_not (not_isFree_of_keeps hk), ← List.append_assoc]
      exact Sweeping.foldl hs live ts ((h.step hs live t).1 hk) (fun _ hr => by cases hr)
    | false =>
      rw [if_neg Bool.false_ne_true]
      exact Sweeping.foldl hs live ts ((h.step hs live t).2 hk)
        (fun r hr => by cases hr; exact extendedRun_isFree run t)

/-! ## The counters -/

def tileWords (s : Space) (ts : List Tile) : Nat := (ts.map fun t => t.count * s.granuleWords).sum

theorem tileWords_cons (s : Space) (t : Tile) (ts : List Tile) :
    s.tileWords (t :: ts) = t.count * s.granuleWords + s.tileWords ts := by
  simp [tileWords]

theorem tileWords_tiling (s : Space) : ∀ {ts : List Tile} {lo hi : Nat}, Tiling lo ts hi →
    lo * s.granuleWords + s.tileWords (freeTiles ts) + s.tileWords (usedTiles ts) = hi * s.granuleWords
  | [], lo, hi, h => by rw [show lo = hi from h]; rfl
  | t :: ts, lo, hi, ⟨hfirst, _, hrest⟩ => by
    subst hfirst
    have ih := tileWords_tiling s hrest
    rw [Tile.stop, Nat.add_mul] at ih
    unfold usedTiles at *
    by_cases ht : t.IsFree
    · rw [freeTiles_cons_of_free ht, List.filter_cons_of_neg (by simp [ht]), tileWords_cons]
      omega
    · rw [freeTiles_cons_of_not ht, List.filter_cons_of_pos (by simp [ht]), tileWords_cons]
      omega

/-- The tiles in use that a sweep does not keep. -/
def drops (s : Space) (live : Bitmap) (t : Tile) : Bool := !decide t.IsFree && !live.isMarked (s.address t.first)

theorem SameGrid.drops {s s' : Space} (h : s.SameGrid s') (live : Bitmap) : s'.drops live = s.drops live := by
  funext t
  rw [Space.drops, Space.drops, h.address]

theorem SameGrid.tileWords {s s' : Space} (h : s.SameGrid s') : s'.tileWords = s.tileWords := by
  funext ts
  rw [Space.tileWords, Space.tileWords, h.2]

theorem tileWords_keeps_drops (s : Space) (live : Bitmap) : ∀ ts : List Tile,
    s.tileWords (ts.filter (s.keeps live)) + s.tileWords (ts.filter (s.drops live)) = s.tileWords (usedTiles ts)
  | [] => rfl
  | t :: ts => by
    have ih := tileWords_keeps_drops s live ts
    unfold usedTiles at *
    by_cases ht : t.IsFree
    · rw [List.filter_cons_of_neg (by simp [keeps, ht]), List.filter_cons_of_neg (by simp [drops, ht]),
        List.filter_cons_of_neg (by simp [ht]), ih]
    · cases hm : live.isMarked (s.address t.first)
      · rw [List.filter_cons_of_neg (by simp [keeps, hm]), List.filter_cons_of_pos (by simp [drops, ht, hm]),
          List.filter_cons_of_pos (by simp [ht]), tileWords_cons, tileWords_cons]
        omega
      · rw [List.filter_cons_of_pos (by simp [keeps, ht, hm]), List.filter_cons_of_neg (by simp [drops, hm]),
          List.filter_cons_of_pos (by simp [ht]), tileWords_cons, tileWords_cons]
        omega

theorem closeRun_counts (w : Sweep) : w.closeRun.liveObjects = w.liveObjects ∧ w.closeRun.liveWords = w.liveWords ∧
    w.closeRun.deadObjects = w.deadObjects ∧ w.closeRun.reclaimedWords = w.reclaimedWords := by
  unfold Sweep.closeRun
  split <;> exact ⟨rfl, rfl, rfl, rfl⟩

theorem extendRun_counts (w : Sweep) (a : Address) (n : Nat) : (w.extendRun a n).liveObjects = w.liveObjects ∧
    (w.extendRun a n).liveWords = w.liveWords ∧ (w.extendRun a n).deadObjects = w.deadObjects ∧
    (w.extendRun a n).reclaimedWords = w.reclaimedWords := by
  unfold Sweep.extendRun
  split <;> exact ⟨rfl, rfl, rfl, rfl⟩

theorem foldl_counts (s : Space) (live : Bitmap) : ∀ (ts : List Tile) (w : Sweep),
    let w' := (ts.map s.extent).foldl (Sweep.step live) w
    w'.liveObjects = w.liveObjects + (ts.filter (s.keeps live)).length ∧
      w'.liveWords = w.liveWords + s.tileWords (ts.filter (s.keeps live)) ∧
      w'.deadObjects = w.deadObjects + (ts.filter (s.drops live)).length ∧
      w'.reclaimedWords = w.reclaimedWords + s.tileWords (ts.filter (s.drops live))
  | [], w => ⟨rfl, rfl, rfl, rfl⟩
  | t :: ts, w => by
    obtain ⟨h1, h2, h3, h4⟩ := foldl_counts s live ts (Sweep.step live w (s.extent t))
    simp only [List.map_cons, List.foldl_cons, h1, h2, h3, h4]
    have hclose := closeRun_counts w
    have hextend := extendRun_counts w
    by_cases ht : t.IsFree
    · simp [Sweep.step, extent, keeps, drops, ht, hextend]
    · cases hm : live.isMarked (s.address t.first)
      · simp [Sweep.step, extent, keeps, drops, tileWords, ht, hm, hextend]
        omega
      · simp [Sweep.step, extent, keeps, drops, tileWords, ht, hm, hclose]
        omega

/-- **A sweep keeps the marked tiles that a walk meets and makes everything between them a chunk**, whatever the list and
the bits were. -/
theorem Regular.sweep_tiles {s : Space} (hs : s.Regular) {m : Memory} {ts : List Tile}
    (htile : Tiling 0 ts s.granules) (hts : ∀ t ∈ ts, s.Meets m t) (live : Bitmap) :
    ∃ s', s.sweep m live = (.ok {
        liveObjects := (ts.filter (s.keeps live)).length
        liveWords := s.tileWords (ts.filter (s.keeps live))
        deadObjects := (ts.filter (s.drops live)).length
        reclaimedWords := s.tileWords (ts.filter (s.drops live))
        freeWords := s'.freeWords
        freeChunks := s'.list.length }, s') ∧
      s.Rebuilt (freeTiles (merged (s.keeps live) none ts)) s' := by
  have hsweep := (Sweeping.start s).foldl hs live ts (fun _ hr => by cases hr)
  obtain ⟨h1, h2, h3, h4⟩ := foldl_counts s live ts (Sweep.start s)
  obtain ⟨c1, c2, c3, c4⟩ := closeRun_counts ((ts.map s.extent).foldl (Sweep.step live) (Sweep.start s))
  have hwalk : s.walk m = ⟨ts.map s.extent, none⟩ := hs.walkFrom_complete htile hts (Nat.le_refl _)
  refine ⟨_, ?_, hsweep.toRebuilt⟩
  unfold sweep
  simp only [hwalk, Sweep.stats, c1, c2, c3, c4, h1, h2, h3, h4]
  simp [Sweep.start]

namespace Tiled

variable {s : Space} {ts : List Tile}

theorem freeWords_eq (h : s.Tiled ts) : s.freeWords = s.tileWords (freeTiles ts) := by
  rw [freeWords, h.list.freeWords, List.map_map]
  rfl

theorem freeWords_add_used (h : s.Tiled ts) : s.freeWords + s.tileWords (usedTiles ts) = s.region.wordSize := by
  have := s.tileWords_tiling h.tiling
  rw [h.freeWords_eq, h.wordSize_eq]
  omega

theorem usedWords_eq (h : s.Tiled ts) : s.usedWords = s.tileWords (usedTiles ts) := by
  have := h.freeWords_add_used
  rw [usedWords]
  omega

/-- **A sweep keeps the marked tiles and frees everything between them.** -/
theorem sweep_spec (h : s.Tiled ts) {m : Memory} (hp : s.Parsable m ts) (live : Bitmap) :
    ∃ s', s.sweep m live = (.ok {
        liveObjects := (ts.filter (s.keeps live)).length
        liveWords := s.tileWords (ts.filter (s.keeps live))
        deadObjects := (ts.filter (s.drops live)).length
        reclaimedWords := s.tileWords (ts.filter (s.drops live))
        freeWords := s'.freeWords
        freeChunks := s'.list.length }, s') ∧
      s'.Tiled (merged (s.keeps live) none ts) ∧ s.SameGrid s' := by
  obtain ⟨s', hsweep, hrebuilt⟩ := h.toRegular.sweep_tiles h.tiling (fun t ht => h.meets ht (hp t ht)) live
  have htile : Tiling 0 (merged (s.keeps live) none ts) s.granules :=
    Tiling.merged (show Tiling 0 (Option.toList none ++ ts) s.granules from h.tiling)
  have hgrid := hrebuilt.grid
  refine ⟨s', hsweep, ⟨hrebuilt.regular h.toRegular, by rw [hgrid.granules]; exact htile, ?_, ?_,
    s.separated_keeps live ts⟩, hgrid⟩
  · rw [show Space.chunk _ = s.chunk from funext hgrid.chunk]
    exact hrebuilt.list
  · intro u hu i hi
    rw [Bool.eq_iff_iff, hrebuilt.bits i, decide_eq_true_eq]
    constructor
    · rintro (hold | ⟨t, ht, hc⟩)
      · apply Classical.byContradiction
        intro hfree
        obtain ⟨hmem, -⟩ := (mem_merged (fun t => not_isFree_of_keeps) hfree).1 hu
        rw [h.bits u hmem i hi, decide_eq_true_eq] at hold
        exact hfree hold
      · rw [htile.eq_of_covers hu (mem_freeTiles.1 ht).1 hi hc]
        exact (mem_freeTiles.1 ht).2
    · exact fun hfree => .inr ⟨u, mem_freeTiles.2 ⟨hu, hfree⟩, hi⟩

end Tiled

end Space

end MarkSweep
