import MarkSweep.Proofs.Bitmap.Update
import MarkSweep.Proofs.FreeList
import MarkSweep.Proofs.Space.Grid
import MarkSweep.Proofs.Tiling
/-!
# A space and its tiles

`Space.Tiled s ts` is the agreement of the three accounts of free words: the tiles `ts` divide the granules, the free
list means the free tiles, and a bit is set exactly in a free tile.  Allocation keeps it (`Tiled.allocate_spec`).
-/
namespace MarkSweep
namespace Space

/-- The chunk that a tile is. -/
def chunk (s : Space) (t : Tile) : Chunk := ⟨s.address t.first, t.count * s.granuleWords⟩

theorem SameGrid.chunk {s t : Space} (h : s.SameGrid t) (u : Tile) : t.chunk u = s.chunk u := by
  rw [Space.chunk, Space.chunk, h.address, h.2]

/-- The tiles divide the granules; the free list and the bitmap both know exactly the free ones. -/
structure Tiled (s : Space) (ts : List Tile) : Prop extends Regular s where
  tiling : Tiling 0 ts s.granules
  list : s.list.Represents ((freeTiles ts).map s.chunk)
  bits : ∀ t ∈ ts, ∀ i, t.Covers i → s.freeChunks.testBit i = decide t.IsFree
  separated : Separated ts

namespace Tiled

variable {s : Space} {ts pre post us : List Tile} {t : Tile}

theorem stop_le (h : s.Tiled ts) (ht : t ∈ ts) : t.stop ≤ s.granules := (h.tiling.bounds ht).2.2

theorem count_pos (h : s.Tiled ts) (ht : t ∈ ts) : 0 < t.count := (h.tiling.bounds ht).2.1

theorem first_lt (h : s.Tiled ts) (ht : t ∈ ts) : t.first < s.granules := by
  have h1 := h.stop_le ht
  have h2 := h.count_pos ht
  unfold Tile.stop at h1
  omega

theorem address_stop_lt (h : s.Tiled ts) (ht : t ∈ ts) : s.address t.stop < addressLimit :=
  h.address_lt_limit (h.stop_le ht)

/-- **Words in use can be put to another use**, all of them or part by part. -/
theorem replace (h : s.Tiled (pre ++ t :: post)) (ht : ¬t.IsFree) (hne : us ≠ []) (hus : ∀ u ∈ us, ¬u.IsFree)
    (htile : Tiling t.first us t.stop) : s.Tiled (pre ++ (us ++ post)) where
  toRegular := h.toRegular
  tiling := h.tiling.replace htile
  list := by
    have hnone : freeTiles us = [] := List.filter_eq_nil_iff.2 fun u hu => by simpa using hus u hu
    have hlist := h.list
    rw [freeTiles_append, freeTiles_cons_of_not ht] at hlist
    rwa [freeTiles_append, freeTiles_append, hnone, List.nil_append]
  bits u hu i hi := by
    rw [List.mem_append, List.mem_append] at hu
    rcases hu with hu | hu | hu
    · exact h.bits u (List.mem_append_left _ hu) i hi
    · have hb := htile.bounds hu
      have hcov : t.Covers i := ⟨Nat.le_trans hb.1 hi.1, Nat.lt_of_lt_of_le hi.2 hb.2.2⟩
      rw [h.bits t (by simp) i hcov]
      simp [ht, hus u hu]
    · exact h.bits u (by simp [hu]) i hi
  separated := by
    refine h.separated.replace hne ?_ (?_) (?_)
    · have hpair : us.Pairwise fun t u => ¬(t.IsFree ∧ u.IsFree) :=
        List.pairwise_of_forall_mem_list fun u hu _ _ hf => hus u hu hf.1
      exact hpair.isChain
    · intro u hu hf
      exact absurd hf (hus u (List.mem_of_mem_head? hu))
    · intro u hu hf
      exact absurd hf (hus u (List.mem_of_mem_getLast? hu))

/-! ## Allocation -/

/-- What is left of a tile without its first `n` granules. -/
def leftover (t : Tile) (n : Nat) : List Tile := if t.count = n then [] else [⟨t.kind, t.first + n, t.count - n⟩]

/-- What a tile becomes when its first `n` granules are granted. -/
def carved (t : Tile) (n : Nat) : List Tile := ⟨.raw, t.first, n⟩ :: leftover t n

theorem mem_leftover {t u : Tile} {n : Nat} :
    u ∈ leftover t n ↔ t.count ≠ n ∧ u = ⟨t.kind, t.first + n, t.count - n⟩ := by
  unfold leftover
  split <;> simp [*]

theorem kind_of_mem_leftover {t u : Tile} {n : Nat} (hu : u ∈ leftover t n) : u.kind = t.kind := by
  rw [(mem_leftover.1 hu).2]

theorem tiling_carved {n : Nat} (hn : 0 < n) (hle : n ≤ t.count) : Tiling t.first (carved t n) t.stop := by
  refine ⟨rfl, hn, ?_⟩
  unfold Tile.stop leftover
  split
  · next h => simp only [Tiling, h]
  · exact ⟨rfl, by simp only; omega, by simp only [Tiling, Tile.stop]; omega⟩

theorem freeTiles_carved {t : Tile} (ht : t.IsFree) (n : Nat) : freeTiles (carved t n) = leftover t n := by
  have hraw : ¬(⟨.raw, t.first, n⟩ : Tile).IsFree := by simp [Tile.IsFree]
  rw [carved, freeTiles_cons_of_not hraw, freeTiles, List.filter_eq_self]
  intro u hu
  exact decide_eq_true ((kind_of_mem_leftover hu).trans ht)

theorem remainder_chunk (s : Space) (hg : 0 < s.granuleWords) (t : Tile) (n : Nat) :
    FreeList.remainder (s.chunk t) (n * s.granuleWords) = (leftover t n).map s.chunk := by
  rw [FreeList.remainder]
  by_cases h : t.count = n
  · subst h
    simp [leftover, chunk]
  · have hne : (s.chunk t).words ≠ n * s.granuleWords := fun he => h (Nat.eq_of_mul_eq_mul_right hg he)
    rw [leftover, if_neg h, if_neg hne]
    simp only [chunk, List.map_cons, List.map_nil, address_add_words, Nat.sub_mul]

theorem exists_firstFit (ts : List Tile) (n : Nat) :
    (∀ u ∈ freeTiles ts, u.count < n) ∨
    ∃ pre t post, ts = pre ++ t :: post ∧ t.IsFree ∧ n ≤ t.count ∧ ∀ u ∈ freeTiles pre, u.count < n := by
  cases hf : ts.find? fun t => decide (t.IsFree ∧ n ≤ t.count) with
  | none =>
    left
    intro u hu
    have := List.find?_eq_none.1 hf u (mem_freeTiles.1 hu).1
    simp only [decide_eq_true_eq, not_and, Nat.not_le] at this
    exact this (mem_freeTiles.1 hu).2
  | some t =>
    right
    obtain ⟨ht, pre, post, rfl, hpre⟩ := List.find?_eq_some_iff_append.1 hf
    simp only [decide_eq_true_eq] at ht
    refine ⟨pre, t, post, rfl, ht.1, ht.2, ?_⟩
    intro u hu
    have := hpre u (mem_freeTiles.1 hu).1
    simp only [Bool.not_eq_true', decide_eq_false_iff_not, not_and, Nat.not_le] at this
    exact this (mem_freeTiles.1 hu).2

theorem carve (h : s.Tiled (pre ++ t :: post)) (ht : t.IsFree) {n : Nat} (hn : 0 < n) (hle : n ≤ t.count)
    {list : FreeList} (hlist : list.Represents (((freeTiles pre).map s.chunk) ++
      FreeList.remainder (s.chunk t) (n * s.granuleWords) ++ (freeTiles post).map s.chunk)) :
    ({ s with list, freeChunks := s.freeChunks.clearRange (s.address t.first) (s.address (t.first + n)) } :
      Space).Tiled (pre ++ (carved t n ++ post)) := by
  have hframe := Bitmap.sameFrame_updateBits s.freeChunks false
    (s.freeChunks.bitOf (s.address t.first)) (s.freeChunks.bitOf (s.address (t.first + n)))
  have htile := tiling_carved hn hle
  have hbit (i : Nat) : (s.freeChunks.clearRange (s.address t.first) (s.address (t.first + n))).testBit i =
      (!decide (t.first ≤ i ∧ i < t.first + n) && s.freeChunks.testBit i) := by
    rw [Bitmap.testBit_clearRange, h.bitOf_address h.covered h.bit_bytes, h.bitOf_address h.covered h.bit_bytes]
  refine ⟨⟨h.granule_pos, h.granule_lt, h.start_dvd, h.stop_eq, h.stop_lt, hframe.1.trans h.covered,
    hframe.2.1.trans h.bit_bytes⟩, h.tiling.replace htile, ?list, ?bits, ?separated⟩
  case list =>
    rw [freeTiles_append, freeTiles_append, List.map_append, List.map_append]
    rw [remainder_chunk s h.granule_pos t, ← freeTiles_carved ht, List.append_assoc] at hlist
    exact hlist
  case bits =>
    intro u hu i hi
    obtain ⟨hpre, -, hpost⟩ := h.tiling.around
    simp only [hbit]
    rw [List.mem_append, List.mem_append] at hu
    rcases hu with hu | hu | hu
    · have hb := hpre.bounds hu
      rw [h.bits u (List.mem_append_left _ hu) i hi, decide_eq_false (by unfold Tile.Covers at hi; omega)]
      rfl
    · have hb := htile.bounds hu
      have hcov : t.Covers i := ⟨Nat.le_trans hb.1 hi.1, Nat.lt_of_lt_of_le hi.2 hb.2.2⟩
      rw [h.bits t (by simp) i hcov, decide_eq_true ht, Bool.and_true]
      rcases List.mem_cons.1 hu with rfl | hu
      · rw [decide_eq_true (show t.first ≤ i ∧ i < t.first + n from hi)]
        rfl
      · obtain ⟨-, rfl⟩ := mem_leftover.1 hu
        have h1 := hi.1
        rw [decide_eq_false (by simp only at h1; omega), decide_eq_true (by exact ht)]
        rfl
    · have hb := hpost.bounds hu
      rw [h.bits u (by simp [hu]) i hi,
        decide_eq_false (by unfold Tile.Covers Tile.stop at *; omega)]
      rfl
  case separated =>
    refine h.separated.replace (by simp [carved]) ?_ (fun _ _ _ => ht) (fun _ _ _ => ht)
    unfold carved leftover
    split <;> simp [Separated, Tile.IsFree]

/-- **Allocation carves the first free tile that is large enough**, and changes nothing where there is none. -/
theorem allocate_spec (h : s.Tiled ts) (words : Nat) :
    (s.allocate words = .ok (none, s) ∧
      (s.canFit words = true → ∀ u ∈ freeTiles ts, u.count < s.granulesFor words)) ∨
    ∃ pre t post s', ts = pre ++ t :: post ∧ t.IsFree ∧ s.granulesFor words ≤ t.count ∧
      (∀ u ∈ freeTiles pre, u.count < s.granulesFor words) ∧ s.canFit words = true ∧
      s.allocate words = .ok (some (s.address t.first), s') ∧
      s'.Tiled (pre ++ (carved t (s.granulesFor words) ++ post)) ∧ s.SameGrid s' := by
  unfold Space.allocate
  by_cases hfit : s.canFit words = true
  case neg =>
    left
    simp only [Bool.not_eq_true] at hfit
    refine ⟨?_, fun hc => absurd hc (by rw [hfit]; decide)⟩
    rw [hfit]
    rfl
  rw [canFit, decide_eq_true_eq] at hfit
  have hg := h.granule_pos
  generalize hn : s.granulesFor words = n
  have hnpos : 0 < n := hn ▸ s.granulesFor_pos words hg
  have hadj : s.adjust words = .ok (n * s.granuleWords) := by rw [h.adjust_eq hfit, hn]
  have hsize (u : Tile) (m : Nat) : (s.chunk u).words < m * s.granuleWords ↔ u.count < m :=
    Nat.mul_lt_mul_right hg
  rcases exists_firstFit ts n with hall | ⟨pre, t, post, rfl, ht, hle, hpre⟩
  · left
    refine ⟨?_, fun _ => hall⟩
    have htake := h.list.take_none (n * s.granuleWords) fun c hc => by
      obtain ⟨u, hu, rfl⟩ := List.mem_map.1 hc
      exact (hsize u n).2 (hall u hu)
    simp [canFit, hfit, hadj, htake, bind, Except.bind, pure, Except.pure]
  · right
    have hlist := h.list
    rw [freeTiles_append, freeTiles_cons_of_free ht, List.map_append, List.map_cons] at hlist
    have htstop := h.address_stop_lt (t := t) (by simp)
    have hend : s.address (t.first + n) < addressLimit :=
      Nat.lt_of_le_of_lt (h.address_le.2 (by unfold Tile.stop; omega)) htstop
    rw [← address_add_words] at hend
    obtain ⟨list, htake, hrep⟩ := hlist.take_some (n * s.granuleWords)
      (fun c hc => by
        obtain ⟨u, hu, rfl⟩ := List.mem_map.1 hc
        exact (hsize u n).2 (hpre u hu))
      (Nat.mul_le_mul_right _ hle) hend
    refine ⟨pre, t, post, _, rfl, ht, hle, hpre, by simpa [canFit] using hfit, ?_, h.carve ht hnpos hle hrep, rfl, rfl⟩
    have hadd : (s.address t.first).addWords (n * s.granuleWords) = .ok (s.address (t.first + n)) := by
      rw [addWords_eq_ok hend, address_add_words]
    have htake' : s.list.take (n * s.granuleWords) = (.ok (some (s.address t.first)), list) := htake
    simp [canFit, hfit, hadj, htake', hadd, bind, Except.bind, pure, Except.pure]

/-- A space that is one free chunk grants what fits into it at its low end. -/
theorem allocate_low (h : s.Tiled [⟨.free, 0, s.granules⟩]) (hpos : 0 < s.granules) {words : Nat}
    (hfit : words ≤ s.region.wordSize) :
    ∃ s', s.allocate words = .ok (some (s.address 0), s') ∧ s.SameGrid s' := by
  rcases h.allocate_spec words with ⟨-, hnone⟩ | ⟨pre, t, post, s', hts, -, -, -, -, hrun, -, hgrid⟩
  · have := hnone (decide_eq_true hfit) ⟨.free, 0, s.granules⟩ (mem_freeTiles.2 ⟨by simp, rfl⟩)
    exact absurd (h.granulesFor_le hpos hfit) (Nat.not_le_of_lt this)
  · have ht : t = ⟨.free, 0, s.granules⟩ := List.mem_singleton.1 (hts ▸ by simp)
    rw [ht] at hrun
    exact ⟨s', hrun, hgrid⟩

end Tiled

end Space

end MarkSweep
