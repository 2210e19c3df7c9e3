import MarkSweep.Proofs.MaximalRuns
import MarkSweep.Proofs.Space.Creation
import MarkSweep.Proofs.Space.Sweep
/-!
# A space through allocations and sweeps

A space knows its free words three times: as the chunks of its list, as a number and as bits.  `Space.Accounted` says that
the three agree with each other and with the words that were granted, and what the next allocation and the next walk
find.  `Space.Evolves.accounted` says so of a space after any allocations and sweeps, in any order.
-/
namespace MarkSweep

namespace Chunk

/-- The address behind the chunk. -/
def past (c : Chunk) : Address := c.start + c.words * wordBytes

def Contains (c : Chunk) (a : Address) : Prop := c.start ≤ a ∧ a < c.past

def Apart (c d : Chunk) : Prop := c.past ≤ d.start ∨ d.past ≤ c.start

end Chunk

namespace Extent

def free? : Extent → Option Chunk
  | free a n => some ⟨a, n⟩
  | object _ _ => none

def used? : Extent → Option Chunk
  | object a n => some ⟨a, n⟩
  | free _ _ => none

end Extent

namespace Space

/-- Every chunk starts with an object whose size rounds up to the chunk. -/
def Formatted (s : Space) (m : Memory) (held : List Chunk) : Prop :=
  ∀ c ∈ held, s.adjust (Object.size m c.start) = .ok c.words

/-- A space after allocations and sweeps, and the chunks that were granted and not reclaimed.  Before a sweep the program
has formatted all of them; which objects the sweep finds marked is free. -/
inductive Evolves : Space → List Chunk → Prop
  | create {r : Region} {granuleWords n : Nat} {granted : Bool} {available : Nat → Bool} {s : Space}
      (run : Space.create r granuleWords granted available = .ok s) (aligned : granuleWords * wordBytes ∣ r.start)
      (whole : r.stop = r.start + n * (granuleWords * wordBytes)) (high : r.stop < addressLimit) : Evolves s []
  | allocate {s s' : Space} {held : List Chunk} {words n : Nat} {a : Address} (reached : Evolves s held)
      (run : s.allocate words = .ok (some a, s')) (size : s.adjust words = .ok n) : Evolves s' (held ++ [⟨a, n⟩])
  | refuse {s s' : Space} {held : List Chunk} {words : Nat} (reached : Evolves s held)
      (run : s.allocate words = .ok (none, s')) : Evolves s' held
  | sweep {s : Space} {held : List Chunk} {m : Memory} {live : Bitmap} (reached : Evolves s held)
      (formatted : s.Formatted m held) : Evolves (s.sweep m live).2 (held.filter fun c => live.isMarked c.start)

/-- **The accounts of a space agree** while the chunks `held` are granted. -/
structure Accounted (s : Space) (held : List Chunk) : Prop where
  nonempty : ∀ c ∈ s.chunks ++ held, 0 < c.words
  aligned : ∀ c ∈ s.chunks ++ held, s.granuleBytes ∣ c.start ∧ s.granuleWords ∣ c.words
  inside : ∀ c ∈ s.chunks ++ held, s.region.start ≤ c.start ∧ c.past ≤ s.region.stop
  /-- Ascending, and with a granule between one chunk and the next. -/
  separated : s.chunks.Pairwise fun c d => c.past + s.granuleBytes ≤ d.start
  bits : ∀ a, s.isIn a = true → (s.isFreeChunk a = true ↔ ∃ c ∈ s.chunks, c.Contains a)
  freeWords : s.freeWords = (s.chunks.map (·.words)).sum
  total : s.usedWords + s.freeWords = s.region.wordSize
  disjoint : held.Pairwise Chunk.Apart
  apart : ∀ c ∈ held, ∀ d ∈ s.chunks, c.Apart d
  walk : ∀ m, s.Formatted m held → (s.walk m).fault = none ∧ (s.walk m).extents.filterMap Extent.free? = s.chunks ∧
    ((s.walk m).extents.filterMap Extent.used?).Perm held
  sweep : ∀ m live, s.Formatted m held → ∃ stats, (s.sweep m live).1 = .ok stats
  /-- The first chunk with room for the granules of the words; without one, nothing changes. -/
  allocate : ∀ words, ∃ s', s.allocate words = .ok
      ((s.chunks.find? fun c => decide (s.granulesFor words * s.granuleWords ≤ c.words)).map (·.start), s') ∧
    ((∀ c ∈ s.chunks, c.words < s.granulesFor words * s.granuleWords) → s' = s)
  adjust : ∀ words, s.canFit words = true → s.adjust words = .ok (s.granulesFor words * s.granuleWords)

/-! ## Chunks and tiles -/

theorem past_chunk (s : Space) (t : Tile) : (s.chunk t).past = s.address t.stop := s.address_add_words t.first t.count

/-- Chunks contain an address where their tiles cover its granule. -/
theorem Regular.contains_iff {s : Space} (h : s.Regular) {a : Address} (ha : s.isIn a = true) :
    ∃ i < s.granules, s.freeChunks.bitOf a = i ∧ ∀ t, (s.chunk t).Contains a ↔ t.Covers i := by
  obtain ⟨hlow, hhigh⟩ := Region.contains_iff.1 ha
  obtain ⟨i, h1, h2⟩ := h.exists_granule hlow
  refine ⟨i, ?_, h.bitOf_eq h.covered h.bit_bytes h1 h2, fun t => ?_⟩
  · rw [h.stop_eq] at hhigh
    exact h.address_lt.1 (Nat.lt_of_le_of_lt h1 hhigh)
  · unfold Chunk.Contains Tile.Covers
    rw [past_chunk]
    constructor
    · rintro ⟨h3, h4⟩
      exact ⟨Nat.le_of_lt_succ (h.address_lt.1 (Nat.lt_of_le_of_lt h3 h2)), h.address_lt.1 (Nat.lt_of_le_of_lt h1 h4)⟩
    · rintro ⟨h3, h4⟩
      exact ⟨Nat.le_trans (h.address_le.2 h3) h1, Nat.lt_of_lt_of_le h2 (h.address_le.2 h4)⟩

theorem filterMap_free (s : Space) (ts : List Tile) :
    (ts.map s.extent).filterMap Extent.free? = (freeTiles ts).map s.chunk := by
  induction ts with
  | nil => rfl
  | cons t ts ih =>
    rw [List.map_cons]
    by_cases ht : t.IsFree
    · rw [freeTiles_cons_of_free ht, List.map_cons,
        List.filterMap_cons_some (b := s.chunk t) (by simp [extent, ht, Extent.free?, chunk]), ih]
    · rw [freeTiles_cons_of_not ht, List.filterMap_cons_none (by simp [extent, ht, Extent.free?]), ih]

theorem filterMap_used (s : Space) (ts : List Tile) :
    (ts.map s.extent).filterMap Extent.used? = (usedTiles ts).map s.chunk := by
  unfold usedTiles
  induction ts with
  | nil => rfl
  | cons t ts ih =>
    rw [List.map_cons]
    by_cases ht : t.IsFree
    · rw [List.filter_cons_of_neg (by simp [ht]), List.filterMap_cons_none (by simp [extent, ht, Extent.used?]), ih]
    · rw [List.filter_cons_of_pos (by simp [ht]), List.map_cons,
        List.filterMap_cons_some (b := s.chunk t) (by simp [extent, ht, Extent.used?, chunk]), ih]

namespace Tiled

variable {s s' : Space} {ts : List Tile} {t u : Tile} {held : List Chunk}

theorem apart_chunk (h : s.Tiled ts) (ht : t ∈ ts) (hu : u ∈ ts) (hne : t ≠ u) : (s.chunk t).Apart (s.chunk u) := by
  unfold Chunk.Apart
  rw [past_chunk, past_chunk]
  exact (h.tiling.apart ht hu hne).imp h.address_le.2 h.address_le.2

theorem isFreeChunk_iff (h : s.Tiled ts) {a : Address} (ha : s.isIn a = true) :
    s.isFreeChunk a = true ↔ ∃ c ∈ s.chunks, c.Contains a := by
  obtain ⟨i, hi, hbit, hcov⟩ := h.contains_iff ha
  obtain ⟨t, ht, ht'⟩ := h.tiling.exists_covers (Nat.zero_le i) hi
  rw [isFreeChunk, Bitmap.isMarked, hbit, h.bits t ht i ht', decide_eq_true_eq, chunks, h.list.chunks]
  constructor
  · exact fun hfree => ⟨_, List.mem_map_of_mem (mem_freeTiles.2 ⟨ht, hfree⟩), (hcov t).2 ht'⟩
  · rintro ⟨c, hc, hca⟩
    obtain ⟨u, hu, rfl⟩ := List.mem_map.1 hc
    obtain ⟨humem, hfree⟩ := mem_freeTiles.1 hu
    rw [h.tiling.eq_of_covers ht humem ht' ((hcov u).1 hca)]
    exact hfree

/-- Formatted words are tiles that a walk can step over. -/
theorem parsable (h : s.Tiled ts) (hp : ((usedTiles ts).map s.chunk).Perm held) {m : Memory} (hm : s.Formatted m held) :
    s.Parsable m ts := by
  intro t ht hfree
  have hc : s.chunk t ∈ held := hp.subset (List.mem_map_of_mem (mem_usedTiles.2 ⟨ht, hfree⟩))
  have hsize := (alignUp_eq_ok_iff.1 (hm _ hc)).2.2
  exact (Nat.eq_of_mul_eq_mul_right h.granule_pos hsize).symm

/-! ## Allocation and sweep -/

/-- **Allocation is first fit.** -/
theorem allocate_firstFit (h : s.Tiled ts) (words : Nat) :
    ∃ s', s.allocate words = .ok
        ((s.chunks.find? fun c => decide (s.granulesFor words * s.granuleWords ≤ c.words)).map (·.start), s') ∧
      ((∀ c ∈ s.chunks, c.words < s.granulesFor words * s.granuleWords) → s' = s) := by
  have hchunks : s.chunks = (freeTiles ts).map s.chunk := h.list.chunks
  have hsize (u : Tile) (n : Nat) : (s.chunk u).words < n * s.granuleWords ↔ u.count < n :=
    Nat.mul_lt_mul_right h.granule_pos
  rcases h.allocate_spec words with ⟨hrun, hsmall⟩ | ⟨pre, t, post, s', rfl, ht, hle, hpre, -, hrun, -⟩
  · -- what does not fit into the region has no chunk either
    have hall : ∀ c ∈ s.chunks, c.words < s.granulesFor words * s.granuleWords := by
      rw [hchunks]
      intro c hc
      obtain ⟨u, hu, rfl⟩ := List.mem_map.1 hc
      by_cases hfit : s.canFit words = true
      · exact (hsize u _).2 (hsmall hfit u hu)
      · have hle : (s.chunk u).words ≤ s.region.wordSize := by
          rw [h.wordSize_eq]
          exact Nat.mul_le_mul_right _ (Nat.le_trans (Nat.le_add_left _ _) (h.stop_le (mem_freeTiles.1 hu).1))
        rw [canFit, decide_eq_true_eq, Nat.not_le] at hfit
        exact Nat.lt_of_le_of_lt hle (Nat.lt_of_lt_of_le hfit (s.words_le_granulesFor words h.granule_pos))
    refine ⟨s, ?_, fun _ => rfl⟩
    rw [hrun, List.find?_eq_none.2 fun c hc => by simpa using hall c hc]
    rfl
  · have hmem : s.chunk t ∈ s.chunks := by
      rw [hchunks]
      exact List.mem_map_of_mem (mem_freeTiles.2 ⟨by simp, ht⟩)
    refine ⟨s', ?_, fun hall => absurd ((hsize t _).1 (hall _ hmem)) (Nat.not_lt_of_le hle)⟩
    have hfind : s.chunks.find? (fun c => decide (s.granulesFor words * s.granuleWords ≤ c.words)) =
        some (s.chunk t) := by
      rw [hchunks, freeTiles_append, freeTiles_cons_of_free ht, List.map_append, List.map_cons]
      refine List.find?_eq_some_iff_append.2 ⟨decide_eq_true (Nat.mul_le_mul_right _ hle), _, _, rfl, fun c hc => ?_⟩
      obtain ⟨u, hu, rfl⟩ := List.mem_map.1 hc
      simpa using (hsize u _).2 (hpre u hu)
    rw [hrun, hfind]
    rfl

/-- **Granted words are a tile in use**, beside those there were. -/
theorem grant (h : s.Tiled ts) {words n : Nat} {a : Address} (hrun : s.allocate words = .ok (some a, s'))
    (hsize : s.adjust words = .ok n) :
    ∃ ts', s'.Tiled ts' ∧ ((usedTiles ts').map s'.chunk).Perm ((usedTiles ts).map s.chunk ++ [⟨a, n⟩]) := by
  rcases h.allocate_spec words with ⟨hnone, -⟩ | ⟨pre, t, post, s₁, rfl, ht, -, -, hfit, hsome, htiled, hgrid⟩
  · rw [hnone] at hrun
    cases hrun
  rw [hsome] at hrun
  cases hrun
  rw [h.adjust_eq (by simpa [canFit] using hfit)] at hsize
  cases hsize
  refine ⟨_, htiled, ?_⟩
  have hcarved : usedTiles (carved t (s.granulesFor words)) = [⟨.raw, t.first, s.granulesFor words⟩] := by
    rw [carved, usedTiles, List.filter_cons_of_pos (by rfl), List.filter_eq_nil_iff.2 fun u hu => by
      simpa [Tile.IsFree, kind_of_mem_leftover hu] using ht]
  have hused : usedTiles (pre ++ t :: post) = usedTiles pre ++ usedTiles post := by
    unfold usedTiles
    rw [List.filter_append, List.filter_cons_of_neg (by simpa using ht)]
  have hused' : usedTiles (pre ++ (carved t (s.granulesFor words) ++ post)) =
      usedTiles pre ++ ⟨.raw, t.first, s.granulesFor words⟩ :: usedTiles post := by
    rw [← List.singleton_append, ← hcarved]
    unfold usedTiles
    rw [List.filter_append, List.filter_append]
  rw [show Space.chunk _ = s.chunk from funext hgrid.chunk, hused, hused', List.map_append, List.map_append, List.map_cons]
  exact List.perm_middle.trans (List.perm_append_singleton _ _).symm

/-- **A sweep reclaims what is not marked** and nothing else. -/
theorem reclaim (h : s.Tiled ts) {m : Memory} (hp : s.Parsable m ts) (live : Bitmap) :
    ∃ ts', (s.sweep m live).2.Tiled ts' ∧ (usedTiles ts').map (s.sweep m live).2.chunk =
      ((usedTiles ts).map s.chunk).filter fun c => live.isMarked c.start := by
  obtain ⟨s', hrun, htiled, hgrid⟩ := h.sweep_spec hp live
  rw [hrun]
  refine ⟨_, htiled, ?_⟩
  have hkeeps : ts.filter (s.keeps live) = (usedTiles ts).filter fun t => live.isMarked (s.chunk t).start := by
    rw [usedTiles, List.filter_filter]
    exact List.filter_congr fun t _ => Bool.and_comm _ _
  rw [filter_merged (fun t => not_isFree_of_keeps) ts none (fun _ hr => by cases hr), hkeeps,
    show Space.chunk _ = s.chunk from funext hgrid.chunk, List.filter_map]
  rfl

/-! ## The accounts -/

theorem accounts (h : s.Tiled ts) (hp : ((usedTiles ts).map s.chunk).Perm held) : s.Accounted held := by
  have hchunks : s.chunks = (freeTiles ts).map s.chunk := h.list.chunks
  have hheld {c : Chunk} (hc : c ∈ held) : ∃ t ∈ ts, ¬t.IsFree ∧ c = s.chunk t := by
    obtain ⟨t, ht, rfl⟩ := List.mem_map.1 (hp.mem_iff.2 hc)
    exact ⟨t, (mem_usedTiles.1 ht).1, (mem_usedTiles.1 ht).2, rfl⟩
  have hlisted {c : Chunk} (hc : c ∈ s.chunks) : ∃ t ∈ ts, t.IsFree ∧ c = s.chunk t := by
    rw [hchunks] at hc
    obtain ⟨t, ht, rfl⟩ := List.mem_map.1 hc
    exact ⟨t, (mem_freeTiles.1 ht).1, (mem_freeTiles.1 ht).2, rfl⟩
  have htile {c : Chunk} (hc : c ∈ s.chunks ++ held) : ∃ t ∈ ts, c = s.chunk t := by
    rcases List.mem_append.1 hc with hc | hc
    · obtain ⟨t, ht, -, rfl⟩ := hlisted hc
      exact ⟨t, ht, rfl⟩
    · obtain ⟨t, ht, -, rfl⟩ := hheld hc
      exact ⟨t, ht, rfl⟩
  constructor
  case nonempty =>
    intro c hc
    obtain ⟨t, ht, rfl⟩ := htile hc
    exact Nat.mul_pos (h.count_pos ht) h.granule_pos
  case aligned =>
    intro c hc
    obtain ⟨t, ht, rfl⟩ := htile hc
    exact ⟨h.granuleBytes_dvd_address _, Nat.dvd_mul_left _ _⟩
  case inside =>
    intro c hc
    obtain ⟨t, ht, rfl⟩ := htile hc
    rw [past_chunk, h.stop_eq]
    exact ⟨s.start_le_address _, h.address_le.2 (h.stop_le ht)⟩
  case separated =>
    rw [hchunks, List.pairwise_map]
    refine (h.tiling.freeTiles_apart h.separated).imp fun {t u} hlt => ?_
    have hnext : s.address t.stop + s.granuleBytes = s.address (t.stop + 1) := by rw [address_add, Nat.one_mul]
    rw [past_chunk, hnext]
    exact h.address_le.2 hlt
  case bits => exact fun a ha => h.isFreeChunk_iff ha
  case freeWords => rw [h.freeWords_eq, hchunks, List.map_map]; rfl
  case total => rw [h.usedWords_eq, Nat.add_comm, h.freeWords_add_used]
  case disjoint =>
    have hapart : (usedTiles ts).Pairwise fun t u => (s.chunk t).Apart (s.chunk u) := by
      refine (h.tiling.pairwise.filter _).imp fun {t u} hle => .inl ?_
      rw [past_chunk]
      exact h.address_le.2 hle
    exact (hp.pairwise_iff fun hcd => Or.symm hcd).1 (List.pairwise_map.2 hapart)
  case apart =>
    intro c hc d hd
    obtain ⟨t, ht, hnot, rfl⟩ := hheld hc
    obtain ⟨u, hu, hfree, rfl⟩ := hlisted hd
    exact h.apart_chunk ht hu fun he => hnot (he ▸ hfree)
  case walk =>
    intro m hm
    rw [h.walk_eq (h.parsable hp hm), filterMap_free, filterMap_used, hchunks]
    exact ⟨rfl, rfl, hp⟩
  case sweep =>
    intro m live hm
    obtain ⟨s', hrun, -⟩ := h.sweep_spec (h.parsable hp hm) live
    exact ⟨_, by rw [hrun]⟩
  case allocate => exact h.allocate_firstFit
  case adjust =>
    intro words hfit
    exact h.adjust_eq (by simpa [canFit] using hfit)

end Tiled

/-- **Every step keeps the tiles**, those in use being the chunks that are granted. -/
theorem Evolves.tiled {s : Space} {held : List Chunk} (h : Evolves s held) :
    ∃ ts, s.Tiled ts ∧ ((usedTiles ts).map s.chunk).Perm held := by
  induction h with
  | create run aligned whole high =>
    obtain ⟨-, -, -, hs⟩ := create_spec run high aligned whole
    exact ⟨_, hs, by rw [usedTiles_newTiles]; exact .nil⟩
  | allocate _ run size ih =>
    obtain ⟨ts, hs, hp⟩ := ih
    obtain ⟨ts', hs', hp'⟩ := hs.grant run size
    exact ⟨ts', hs', hp'.trans (hp.append_right _)⟩
  | refuse _ run ih =>
    obtain ⟨ts, hs, hp⟩ := ih
    rcases hs.allocate_spec _ with ⟨hnone, -⟩ | ⟨_, _, _, _, -, -, -, -, -, hsome, -⟩
    · rw [hnone] at run
      cases run
      exact ⟨ts, hs, hp⟩
    · rw [hsome] at run
      cases run
  | sweep _ formatted ih =>
    obtain ⟨ts, hs, hp⟩ := ih
    obtain ⟨ts', hs', hused⟩ := hs.reclaim (hs.parsable hp formatted) _
    exact ⟨ts', hs', hused ▸ hp.filter _⟩

/-- **The accounts of a space agree** after any allocations and sweeps. -/
theorem Evolves.accounted {s : Space} {held : List Chunk} (h : Evolves s held) : s.Accounted held := by
  obtain ⟨ts, hs, hp⟩ := h.tiled
  exact hs.accounts hp

/-- A space in which a sweep kept one of two granted chunks. -/
theorem exists_evolved : ∃ s c, Evolves s [c] ∧ s.chunks.length = 2 ∧ s.Accounted [c] := by
  have hrun : (match create ⟨4096, 4352⟩ 2 true with
      | .ok s => match s.allocate 3 with
        | .ok (some a, s₁) => match s₁.allocate 5 with
          | .ok (some b, s₂) =>
            let m := Object.format (Object.format .blank a 3 1) b 6 0
            let live := s₂.freeChunks.mark b
            decide (s.adjust 3 = .ok 4 ∧ s₁.adjust 5 = .ok 6 ∧ s₂.adjust (Object.size m a) = .ok 4 ∧
              s₂.adjust (Object.size m b) = .ok 6 ∧ live.isMarked a = false ∧ live.isMarked b = true ∧
              (s₂.sweep m live).2.chunks.length = 2)
          | .ok (none, _) | .error _ => false
        | .ok (none, _) | .error _ => false
      | .error _ => false) = true := by decide +kernel
  split at hrun
  case h_2 => cases hrun
  next s hcreate =>
  split at hrun
  case h_2 | h_3 => cases hrun
  next a s₁ hfirst =>
  split at hrun
  case h_2 | h_3 => cases hrun
  next b s₂ hsecond =>
  obtain ⟨hn, hn', ha, hb, hdead, hlive, hlist⟩ := of_decide_eq_true hrun
  have hnew : Evolves s [] := .create hcreate (by decide) (n := 16) (by decide) (by decide)
  have hevolves := (hnew.allocate hfirst hn).allocate hsecond hn'
  have hswept : Evolves (s₂.sweep (Object.format (Object.format .blank a 3 1) b 6 0) (s₂.freeChunks.mark b)).2 _ :=
    hevolves.sweep (by simp [Formatted, ha, hb])
  simp only [List.nil_append, List.cons_append, List.filter_cons, hdead, hlive, List.filter_nil] at hswept
  exact ⟨_, _, hswept, hlist, Evolves.accounted hswept⟩

end Space
end MarkSweep
