import MarkSweep.Proofs.FreeList.Refinement
import MarkSweep.Proofs.Space.SweepAlong
/-!
# Free chunks lie in the space

A program can write over headers and so mislead the walk that a sweep follows.  Whatever it wrote, the sweep takes its
chunks from the granules of the space, and so does every allocation (`Space.Contained`).
-/
namespace MarkSweep
namespace Space

/-- Every chunk of the free list is made of granules of the space.  Nothing is known of the bits, nor whether two chunks
share a granule. -/
structure Contained (s : Space) : Prop extends Regular s where
  chunks : ∃ tiles : List Tile, s.list.Represents (tiles.map s.chunk) ∧ ∀ t ∈ tiles, t.stop ≤ s.granules

theorem Tiled.contained {s : Space} {ts : List Tile} (h : s.Tiled ts) : s.Contained :=
  ⟨h.toRegular, freeTiles ts, h.list, fun _ ht => h.stop_le (mem_freeTiles.1 ht).1⟩

/-- Tiles of one grid are the same chunks on another space over it. -/
theorem Contained.of_grid {s s' : Space} (hs : s.Regular) (hgrid : s.SameGrid s')
    (hframe : s.freeChunks.SameFrame s'.freeChunks) {tiles : List Tile} (hlist : s'.list.Represents (tiles.map s.chunk))
    (hstop : ∀ t ∈ tiles, t.stop ≤ s.granules) : s'.Contained := by
  refine ⟨hs.congr hgrid hframe, tiles, ?_, by rwa [hgrid.granules]⟩
  rwa [show s'.chunk = s.chunk from funext hgrid.chunk]

namespace Contained

variable {s : Space}

/-- **What is granted lies in the space**, and what is left on the list does. -/
theorem allocate_spec (h : s.Contained) (words : Nat) : s.allocate words = .ok (none, s) ∨
    ∃ k s', s.allocate words = .ok (some (s.address k), s') ∧ k + s.granulesFor words ≤ s.granules ∧
      s.SameGrid s' ∧ s'.Contained := by
  obtain ⟨hs, tiles, hlist, hstop⟩ := h
  unfold Space.allocate
  cases hfit : s.canFit words with
  | false => exact .inl rfl
  | true =>
  generalize hn : s.granulesFor words = n
  have hadj : s.adjust words = .ok (n * s.granuleWords) := hn ▸ hs.adjust_eq (of_decide_eq_true hfit)
  simp only [Bool.not_true, Bool.false_eq_true, if_false, hadj, bind, Except.bind]
  rcases FreeList.small_or_first (tiles.map s.chunk) (n * s.granuleWords) with hsmall | ⟨cs, c, ds, hsplit, hpre, hc⟩
  · rw [hlist.take_none _ hsmall]
    exact .inl rfl
  right
  obtain ⟨pre, rest, rfl, rfl, hrest⟩ := List.map_eq_append_iff.1 hsplit
  obtain ⟨t, post, rfl, rfl, rfl⟩ := List.map_eq_cons_iff.1 hrest
  have hcount : n ≤ t.count := Nat.le_of_mul_le_mul_right hc hs.granule_pos
  have hend : t.first + n ≤ s.granules :=
    Nat.le_trans (Nat.add_le_add_left hcount _) (hstop t (by simp))
  have hlt : s.address (t.first + n) < addressLimit := hs.address_lt_limit hend
  rw [← address_add_words] at hlt
  rw [List.map_append, List.map_cons] at hlist
  obtain ⟨list, htake, hrep⟩ := hlist.take_some _ hpre hc hlt
  have htake' : s.list.take (n * s.granuleWords) = (.ok (some (s.address t.first)), list) := htake
  have hframe := Bitmap.sameFrame_updateBits s.freeChunks false
    (s.freeChunks.bitOf (s.address t.first)) (s.freeChunks.bitOf (s.address t.first + n * s.granuleWords * wordBytes))
  simp only [htake', addWords_eq_ok hlt, pure, Except.pure]
  rw [Tiled.remainder_chunk s hs.granule_pos, ← List.map_append, ← List.map_append] at hrep
  refine ⟨t.first, _, rfl, hend, ⟨rfl, rfl⟩, .of_grid hs ⟨rfl, rfl⟩ hframe hrep fun u hu => ?_⟩
  rw [List.mem_append, List.mem_append] at hu
  rcases hu with (hu | hu) | hu
  · exact hstop u (by simp [hu])
  · -- what is left of the chunk ends where the chunk did
    have hpos : 0 < n := hn ▸ s.granulesFor_pos words hs.granule_pos
    have hcarved := (Tiled.tiling_carved hpos hcount).bounds (List.mem_cons_of_mem _ hu)
    exact Nat.le_trans hcarved.2.2 (hstop t (by simp))
  · exact hstop u (by simp [hu])

/-- **A sweep makes chunks of granules of the space**, whatever the memory and the bitmaps hold, and also where it
stops halfway. -/
theorem sweep_spec (h : s.Contained) (m : Memory) (live : Bitmap) :
    s.SameGrid (s.sweep m live).2 ∧ (s.sweep m live).2.Contained := by
  have hs := h.toRegular
  obtain ⟨ts, stop, htile, hts, hend⟩ := hs.walk_cases m
  have hstop : stop ≤ s.granules := by
    rcases hend with ⟨rfl, -⟩ | ⟨hover, -⟩
    · exact Nat.le_refl _
    · exact Nat.le_of_lt hover.lt
  obtain ⟨w, hw, ⟨closed, run, hsweeping, hbehind⟩, -⟩ := Trails.along_tiles hs live 0 (.start s) htile hts
  have hin : ∀ t ∈ closed ++ run.toList, t.stop ≤ s.granules := fun t ht => Nat.le_trans (hbehind t ht) hstop
  rw [sweep]
  rcases hend with ⟨-, hwalk⟩ | ⟨-, hwalk⟩
  · have hclosed := hsweeping.closeRun hs
    rw [show s.walk m = _ from hwalk _ (Nat.le_refl _), ← hw]
    exact ⟨hclosed.grid, .of_grid hs hclosed.grid hclosed.frame hclosed.list hin⟩
  · rw [show s.walk m = _ from hwalk _ (Nat.le_refl _), ← hw]
    exact ⟨hsweeping.grid, .of_grid hs hsweeping.grid hsweeping.frame hsweeping.list
      fun t ht => hin t (List.mem_append_left _ ht)⟩

end Contained

end Space
end MarkSweep
