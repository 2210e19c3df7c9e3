import MarkSweep.Heap.Collection
import MarkSweep.Proofs.Heap.Creation
import MarkSweep.Proofs.Space.Evolution
import MarkSweep.Proofs.Space.SweepAlong
/-!
# A sweep makes the maximal free runs

Whatever the list, the bits and the marks were, a sweep that the walk does not stop leaves the maximal runs of the
stretches that hold no marked object, and a second sweep leaves the same (`Heap.sweepDead_exact`).
-/
namespace MarkSweep

/-! ## Merging twice -/

/-- Tiles that are apart already and all kept, or free, are left as they are. -/
theorem merged_eq_self {keep : Tile → Bool} : ∀ {ts : List Tile}, Separated ts →
    (∀ t ∈ ts, keep t = !decide t.IsFree) → merged keep none ts = ts
  | [], _, _ => rfl
  | t :: ts, hsep, hkeep => by
    obtain ⟨hhead, hsep⟩ := separated_cons.1 hsep
    have hrest := merged_eq_self hsep fun u hu => hkeep u (by simp [hu])
    rw [merged, hkeep t (by simp)]
    by_cases ht : t.IsFree
    · have hself : extendedRun none t = t := by
        obtain ⟨kind, first, count⟩ := t
        obtain rfl : kind = .free := ht
        rfl
      rw [decide_eq_true ht, if_neg (by decide), hself]
      -- the run of `t` ends with it, since the next tile is in use
      cases ts with
      | nil => rfl
      | cons u us =>
        have hu : ¬u.IsFree := fun hu => hhead u rfl ⟨ht, hu⟩
        have hkeepu : keep u = true := by rw [hkeep u (by simp), decide_eq_false hu]; rfl
        rw [merged, if_pos hkeepu] at hrest ⊢
        rw [Option.toList_none, List.nil_append] at hrest
        rw [hrest]
        rfl
    · rw [decide_eq_false ht, if_pos (by decide), hrest]
      rfl

/-- A merge frees just the granules of the tiles that it does not keep. -/
theorem exists_merged_covers {keep : Tile → Bool} (hkeep : ∀ t, keep t = true → ¬t.IsFree) {ts : List Tile} {lo hi : Nat}
    (h : Tiling lo ts hi) {i : Nat} (hlo : lo ≤ i) (hhi : i < hi) :
    (∃ t ∈ freeTiles (merged keep none ts), t.Covers i) ↔ ∃ t ∈ ts, keep t = false ∧ t.Covers i := by
  have hm : Tiling lo (merged keep none ts) hi := Tiling.merged (show Tiling lo (Option.toList none ++ ts) hi from h)
  obtain ⟨t, ht, hti⟩ := h.exists_covers hlo hhi
  obtain ⟨u, hu, hui⟩ := hm.exists_covers hlo hhi
  constructor
  · rintro ⟨v, hv, hvi⟩
    obtain ⟨hv, hfree⟩ := mem_freeTiles.1 hv
    refine ⟨t, ht, Bool.eq_false_iff.2 fun hk => ?_, hti⟩
    have htm := (mem_merged hkeep (hkeep t hk)).2 ⟨ht, hk⟩
    exact hkeep t hk (hm.eq_of_covers htm hv hti hvi ▸ hfree)
  · rintro ⟨v, hv, hk, hvi⟩
    refine ⟨u, mem_freeTiles.2 ⟨hu, Classical.byContradiction fun hnot => ?_⟩, hui⟩
    obtain ⟨hut, hku⟩ := (mem_merged hkeep hnot).1 hu
    rw [h.eq_of_covers hut hv hui hvi, hk] at hku
    cases hku

namespace Extent

/-- An object that is marked. -/
def kept (live : Bitmap) : Extent → Bool
  | object a _ => live.isMarked a
  | free _ _ => false

/-- An object that is not marked. -/
def dropped (live : Bitmap) : Extent → Bool
  | object a _ => !live.isMarked a
  | free _ _ => false

def Spans (e : Extent) (a : Address) : Prop := e.start ≤ a ∧ a < e.start + e.words * wordBytes

end Extent

namespace Space

variable {s s' : Space} {m : Memory} {live : Bitmap} {ts : List Tile}

/-! ## Tiles as stretches -/

theorem kept_extent (s : Space) (live : Bitmap) : Extent.kept live ∘ s.extent = s.keeps live := by
  funext t
  by_cases ht : t.IsFree <;> simp [Extent.kept, extent, keeps, ht]

theorem dropped_extent (s : Space) (live : Bitmap) : Extent.dropped live ∘ s.extent = s.drops live := by
  funext t
  by_cases ht : t.IsFree <;> simp [Extent.dropped, extent, drops, ht]

theorem sum_words_extent (s : Space) (ts : List Tile) : ((ts.map s.extent).map (·.words)).sum = s.tileWords ts := by
  rw [tileWords, List.map_map]
  congr 1
  exact List.map_congr_left fun t _ => s.extent_words t

theorem spans_extent (s : Space) (t : Tile) (a : Address) : (s.extent t).Spans a ↔ (s.chunk t).Contains a := by
  rw [Extent.Spans, extent_start, extent_words]
  rfl

theorem length_kept_add_dropped (live : Bitmap) : ∀ es : List Extent,
    (es.filter (Extent.kept live)).length + (es.filter (Extent.dropped live)).length =
      (es.filterMap Extent.object?).length
  | [] => rfl
  | .free a n :: es => length_kept_add_dropped live es
  | .object a n :: es => by
    have ih := length_kept_add_dropped live es
    rw [List.filterMap_cons_some (show (Extent.object a n).object? = some a from rfl)]
    cases hm : live.isMarked a
    · rw [List.filter_cons_of_neg (by simp [Extent.kept, hm]), List.filter_cons_of_pos (by simp [Extent.dropped, hm]),
        List.length_cons, List.length_cons, ← ih]
      omega
    · rw [List.filter_cons_of_pos (by simp [Extent.kept, hm]), List.filter_cons_of_neg (by simp [Extent.dropped, hm]),
        List.length_cons, List.length_cons, ← ih]
      omega

/-! ## What a sweep leaves -/

/-- **A sweep of the stretches `es`** against the marks `live` counted `stats` and left `s'` of the space `s`. -/
structure SweptTo (s : Space) (live : Bitmap) (es : List Extent) (stats : SweepStats) (s' : Space) : Prop where
  grid : s.SameGrid s'
  /-- The chunks are the maximal runs of the addresses in stretches that are not kept. -/
  runs : MaximalRuns (fun a => ∃ e ∈ es, e.kept live = false ∧ e.Spans a) s.region.stop
    (s'.chunks.map fun c => (c.start, c.words * wordBytes))
  bits : ∀ a, s.isIn a = true → (s'.isFreeChunk a = true ↔ s.isFreeChunk a = true ∨ ∃ c ∈ s'.chunks, c.Contains a)
  liveObjects : stats.liveObjects = (es.filter (Extent.kept live)).length
  deadObjects : stats.deadObjects = (es.filter (Extent.dropped live)).length
  objects : stats.liveObjects + stats.deadObjects = (es.filterMap Extent.object?).length
  liveWords : stats.liveWords = ((es.filter (Extent.kept live)).map (·.words)).sum
  reclaimedWords : stats.reclaimedWords = ((es.filter (Extent.dropped live)).map (·.words)).sum
  freeWords : stats.freeWords = (s'.chunks.map (·.words)).sum
  total : stats.liveWords + stats.freeWords = s.region.wordSize
  freeChunks : stats.freeChunks = s'.chunks.length

theorem Rebuilt.chunks (h : s.Rebuilt ts s') : s'.chunks = ts.map s.chunk := h.list.chunks

theorem Rebuilt.freeWords (h : s.Rebuilt ts s') : s'.freeWords = s.tileWords ts := by
  rw [Space.freeWords, h.list.freeWords, List.map_map]
  rfl

theorem Rebuilt.freeChunks (h : s.Rebuilt ts s') : s'.list.length = s'.chunks.length := by
  rw [h.chunks, h.list.length]

theorem Rebuilt.isFreeChunk_iff (h : s.Rebuilt ts s') (hs : s.Regular) {a : Address} (ha : s.isIn a = true) :
    s'.isFreeChunk a = true ↔ s.isFreeChunk a = true ∨ ∃ c ∈ s'.chunks, c.Contains a := by
  obtain ⟨i, -, hbit, hcov⟩ := hs.contains_iff ha
  have hbit' : s'.freeChunks.bitOf a = i := by rw [← hbit, Bitmap.bitOf, Bitmap.bitOf, h.frame.1, h.frame.2.1]
  rw [isFreeChunk, isFreeChunk, Bitmap.isMarked, Bitmap.isMarked, hbit, hbit', h.bits i, h.chunks]
  refine or_congr_right ⟨?_, ?_⟩
  · rintro ⟨t, ht, hc⟩
    exact ⟨_, List.mem_map_of_mem ht, (hcov t).2 hc⟩
  · rintro ⟨c, hc, ha⟩
    obtain ⟨t, ht, rfl⟩ := List.mem_map.1 hc
    exact ⟨t, ht, (hcov t).1 ha⟩

/-- The free tiles after a merge are the maximal runs of the addresses in the tiles that are not kept. -/
theorem Regular.maximalRuns (hs : s.Regular) (live : Bitmap) (htile : Tiling 0 ts s.granules) :
    MaximalRuns (fun a => ∃ e ∈ ts.map s.extent, e.kept live = false ∧ e.Spans a) s.region.stop
      (((freeTiles (merged (s.keeps live) none ts)).map s.chunk).map fun c => (c.start, c.words * wordBytes)) := by
  have hm : Tiling 0 (merged (s.keeps live) none ts) s.granules :=
    Tiling.merged (show Tiling 0 (Option.toList none ++ ts) s.granules from htile)
  have hsep := s.separated_keeps live ts
  have hkept (t : Tile) : (s.extent t).kept live = s.keeps live t := congrFun (s.kept_extent live) t
  refine ⟨?_, ?_, fun a => ⟨?_, ?_⟩⟩
  · intro r hr
    obtain ⟨c, hc, rfl⟩ := List.mem_map.1 hr
    obtain ⟨t, ht, rfl⟩ := List.mem_map.1 hc
    exact Nat.mul_pos (Nat.mul_pos (hm.bounds (mem_freeTiles.1 ht).1).2.1 hs.granule_pos) (by decide)
  · rw [List.pairwise_map, List.pairwise_map]
    refine (hm.freeTiles_apart hsep).imp fun {t u} hlt => ?_
    exact (s.past_chunk t).trans_lt (hs.address_lt.2 hlt)
  · rintro ⟨r, hr, hra⟩
    obtain ⟨c, hc, rfl⟩ := List.mem_map.1 hr
    obtain ⟨t, ht, rfl⟩ := List.mem_map.1 hc
    have hpast : a < s.region.stop := by
      rw [hs.stop_eq]
      refine Nat.lt_of_lt_of_le (Nat.lt_of_lt_of_eq hra.2 (s.past_chunk t)) (hs.address_le.2 ?_)
      exact (hm.bounds (mem_freeTiles.1 ht).1).2.2
    have hin : s.isIn a = true := Region.contains_iff.2 ⟨Nat.le_trans (s.start_le_address _) hra.1, hpast⟩
    obtain ⟨i, hi, -, hcov⟩ := hs.contains_iff hin
    obtain ⟨u, hu, hk, hui⟩ := (exists_merged_covers (fun t => not_isFree_of_keeps) htile (Nat.zero_le i) hi).1
      ⟨t, ht, (hcov t).1 hra⟩
    exact ⟨hpast, _, List.mem_map_of_mem hu, (hkept u).trans hk, (s.spans_extent u a).2 ((hcov u).2 hui)⟩
  · rintro ⟨hpast, e, he, hk, hspan⟩
    obtain ⟨u, hu, rfl⟩ := List.mem_map.1 he
    rw [spans_extent] at hspan
    have hin : s.isIn a = true := Region.contains_iff.2 ⟨Nat.le_trans (s.start_le_address _) hspan.1, hpast⟩
    obtain ⟨i, hi, -, hcov⟩ := hs.contains_iff hin
    obtain ⟨t, ht, hti⟩ := (exists_merged_covers (fun t => not_isFree_of_keeps) htile (Nat.zero_le i) hi).2
      ⟨u, hu, (hkept u).symm.trans hk, (hcov u).1 hspan⟩
    exact ⟨_, List.mem_map_of_mem (List.mem_map_of_mem ht), (hcov t).2 hti⟩

theorem Rebuilt.sweptTo (h : s.Rebuilt (freeTiles (merged (s.keeps live) none ts)) s') (hs : s.Regular)
    (htile : Tiling 0 ts s.granules) :
    s.SweptTo live (ts.map s.extent) {
      liveObjects := (ts.filter (s.keeps live)).length
      liveWords := s.tileWords (ts.filter (s.keeps live))
      deadObjects := (ts.filter (s.drops live)).length
      reclaimedWords := s.tileWords (ts.filter (s.drops live))
      freeWords := s'.freeWords
      freeChunks := s'.list.length } s' := by
  have hkept : (ts.map s.extent).filter (Extent.kept live) = (ts.filter (s.keeps live)).map s.extent := by
    rw [List.filter_map, kept_extent]
  have hdropped : (ts.map s.extent).filter (Extent.dropped live) = (ts.filter (s.drops live)).map s.extent := by
    rw [List.filter_map, dropped_extent]
  constructor
  case grid => exact h.grid
  case runs => rw [h.chunks]; exact hs.maximalRuns live htile
  case bits => exact fun a ha => h.isFreeChunk_iff hs ha
  case liveObjects => rw [hkept, List.length_map]
  case deadObjects => rw [hdropped, List.length_map]
  case objects => rw [← length_kept_add_dropped live, hkept, hdropped, List.length_map, List.length_map]
  case liveWords => rw [hkept, sum_words_extent]
  case reclaimedWords => rw [hdropped, sum_words_extent]
  case freeWords => rw [h.freeWords, h.chunks, List.map_map]; rfl
  case total =>
    have hm : Tiling 0 (merged (s.keeps live) none ts) s.granules :=
      Tiling.merged (show Tiling 0 (Option.toList none ++ ts) s.granules from htile)
    have hsum := s.tileWords_tiling hm
    have hused : usedTiles (merged (s.keeps live) none ts) = ts.filter (s.keeps live) :=
      filter_merged (fun t => not_isFree_of_keeps) ts none (fun _ hr => by cases hr)
    rw [hused] at hsum
    simp only [h.freeWords, hs.wordSize_eq]
    omega
  case freeChunks => exact h.freeChunks

/-! ## Sweeping again -/

/-- A walk after a sweep meets the merged tiles. -/
theorem Rebuilt.meets (h : s.Rebuilt (freeTiles (merged (s.keeps live) none ts)) s') (htile : Tiling 0 ts s.granules)
    (hts : ∀ t ∈ ts, s.Meets m t) {u : Tile} (hu : u ∈ merged (s.keeps live) none ts) : s'.Meets m u := by
  have hm : Tiling 0 (merged (s.keeps live) none ts) s.granules :=
    Tiling.merged (show Tiling 0 (Option.toList none ++ ts) s.granules from htile)
  have hsep := s.separated_keeps live ts
  have hkept {v : Tile} (hv : v ∈ merged (s.keeps live) none ts) (hused : ¬v.IsFree) : v ∈ ts :=
    ((mem_merged (fun t => not_isFree_of_keeps) hused).1 hv).1
  -- the first bit of a kept tile was clear, and no chunk covers it
  have hclear {v : Tile} (hv : v ∈ merged (s.keeps live) none ts) (hused : ¬v.IsFree) :
      s'.freeChunks.testBit v.first = false := by
    rw [Bool.eq_false_iff, ne_eq, h.bits]
    rintro (hold | ⟨t, ht, hcov⟩)
    · rw [(hts v (hkept hv hused)).bit_first hused] at hold
      cases hold
    · obtain ⟨ht, hfree⟩ := mem_freeTiles.1 ht
      exact hused (hm.eq_of_covers ht hv hcov (Tiling.covers_first (hm.bounds hv).2.1) ▸ hfree)
  constructor
  case count_pos => exact (hm.bounds hu).2.1
  case stop_le => rw [h.grid.granules]; exact (hm.bounds hu).2.2
  case bits => exact fun hfree i hi => (h.bits i).2 (.inr ⟨u, mem_freeTiles.2 ⟨hu, hfree⟩, hi⟩)
  case bit_stop =>
    intro hfree hlt
    rw [h.grid.granules] at hlt
    obtain ⟨pre, post, hsplit⟩ := List.append_of_mem hu
    rw [hsplit] at hm hsep
    cases post with
    | nil =>
      have : u.stop = s.granules := hm.around.2.2
      omega
    | cons v post =>
      have hv : ¬v.IsFree := fun hv => (separated_cons.1 (separated_append.1 hsep).2.1).1 v rfl ⟨hfree, hv⟩
      have hfirst : v.first = u.stop := hm.around.2.2.1
      rw [← hfirst]
      exact hclear (hsplit ▸ by simp) hv
  case bit_first => exact hclear hu
  case headed => exact fun hused => h.grid.headed ((hts u (hkept hu hused)).headed hused)

/-- **A second sweep finds nothing more to do.** -/
theorem Rebuilt.sweep_again (h : s.Rebuilt (freeTiles (merged (s.keeps live) none ts)) s') (hs : s.Regular)
    (htile : Tiling 0 ts s.granules) (hts : ∀ t ∈ ts, s.Meets m t) :
    ∃ s'', s'.sweep m live = (.ok {
        liveObjects := (ts.filter (s.keeps live)).length
        liveWords := s.tileWords (ts.filter (s.keeps live))
        deadObjects := 0
        reclaimedWords := 0
        freeWords := s'.freeWords
        freeChunks := s'.list.length }, s'') ∧
      s''.chunks = s'.chunks ∧ s'.freeChunks.SameFrame s''.freeChunks ∧
      ∀ i, s''.freeChunks.testBit i = s'.freeChunks.testBit i := by
  have hm : Tiling 0 (merged (s.keeps live) none ts) s'.granules := by
    rw [h.grid.granules]
    exact Tiling.merged (show Tiling 0 (Option.toList none ++ ts) s.granules from htile)
  have hsep := s.separated_keeps live ts
  have hused {u : Tile} (hu : u ∈ merged (s.keeps live) none ts) : s.keeps live u = !decide u.IsFree := by
    by_cases hfree : u.IsFree
    · rw [keeps, decide_eq_true hfree]
      rfl
    · rw [decide_eq_false hfree, ((mem_merged (fun t => not_isFree_of_keeps) hfree).1 hu).2]
      rfl
  obtain ⟨s'', hsweep, hagain⟩ := (h.regular hs).sweep_tiles hm (fun u hu => h.meets htile hts hu) live
  have hkept : (merged (s.keeps live) none ts).filter (s.keeps live) = ts.filter (s.keeps live) := by
    rw [← filter_merged (fun t => not_isFree_of_keeps) ts none (fun _ hr => by cases hr), usedTiles]
    exact List.filter_congr fun u hu => hused hu
  have hdropped : (merged (s.keeps live) none ts).filter (s.drops live) = [] := by
    refine List.filter_eq_nil_iff.2 fun u hu => ?_
    have := hused hu
    unfold drops
    unfold keeps at this
    cases hfree : decide u.IsFree <;> simp_all
  rw [h.grid.keeps, merged_eq_self hsep fun u hu => hused hu] at hagain
  have hchunks : s''.chunks = s'.chunks := by
    rw [hagain.chunks, h.chunks]
    exact List.map_congr_left fun t _ => h.grid.chunk t
  refine ⟨s'', ?_, hchunks, hagain.frame, fun i => ?_⟩
  · rw [hsweep, h.grid.keeps, h.grid.drops, h.grid.tileWords, hkept, hdropped, hagain.freeChunks, hchunks, ← h.freeChunks,
      hagain.freeWords, h.grid.tileWords, h.freeWords]
    rfl
  · rw [Bool.eq_iff_iff, hagain.bits i]
    exact or_iff_left_of_imp fun hc => (h.bits i).2 (.inr hc)

/-- A sweep depends on the granules and the bits, and not on the free list that it drops. -/
theorem Rebuilt.sweep_congr (h : s.Rebuilt (freeTiles (merged (s.keeps live) none ts)) s') (hs : s.Regular)
    (htile : Tiling 0 ts s.granules) (hts : ∀ t ∈ ts, s.Meets m t) {r : Space} (hgrid : s.SameGrid r)
    (hbits : r.freeChunks = s.freeChunks) :
    ∃ r', r.sweep m live = (.ok {
        liveObjects := (ts.filter (s.keeps live)).length
        liveWords := s.tileWords (ts.filter (s.keeps live))
        deadObjects := (ts.filter (s.drops live)).length
        reclaimedWords := s.tileWords (ts.filter (s.drops live))
        freeWords := s'.freeWords
        freeChunks := s'.list.length }, r') ∧
      r'.chunks = s'.chunks ∧ ∀ i, r'.freeChunks.testBit i = s'.freeChunks.testBit i := by
  have hr : r.Regular := hs.congr hgrid (hbits ▸ ⟨rfl, rfl, rfl, rfl⟩)
  obtain ⟨r', hsweep, hother⟩ := hr.sweep_tiles (by rw [hgrid.granules]; exact htile)
    (fun t ht => (hts t ht).congr hgrid fun _ _ => by rw [hbits]) live
  rw [hgrid.keeps] at hother
  have hchunks : r'.chunks = s'.chunks := by
    rw [hother.chunks, h.chunks]
    exact List.map_congr_left fun t _ => hgrid.chunk t
  refine ⟨r', ?_, hchunks, fun i => by rw [Bool.eq_iff_iff, hother.bits i, h.bits i, hbits]⟩
  rw [hsweep, hgrid.keeps, hgrid.drops, hgrid.tileWords, hother.freeChunks, hchunks, ← h.freeChunks, hother.freeWords,
    hgrid.tileWords, h.freeWords]

end Space

namespace Heap

theorem sweepDead_run {h : Heap} {stats : SweepStats} {space : Space}
    (hsweep : h.space.sweep h.memory h.live = (.ok stats, space)) :
    sweepDead.run h = .ok stats { h with phase := .sweeping, space } := by
  unfold sweepDead
  rw [EStateM.run_bind, EStateM.run_get]
  simp only [hsweep]
  rw [EStateM.run_bind, EStateM.run_set]
  exact run_lift_ok _ _

/-- **A sweep is exact**, whatever the words of the heap, the bits of free chunks, the free list and the marks are, where
the walk is not stopped.  Its chunks are the maximal runs of free stretches and unmarked objects, it adds just their bits
to the bitmap, and it changes neither a word nor a mark.  The list that it finds does not matter, nor that it sets bits
while the walk reads them.  A second sweep leaves the same and finds nothing to reclaim. -/
theorem sweepDead_exact {h : Heap} (hs : h.space.Regular) (hwalk : (h.space.walk h.memory).fault = none) :
    ∃ stats space, sweepDead.run h = .ok stats { h with phase := .sweeping, space } ∧
      h.space.SweptTo h.live (h.space.walk h.memory).extents stats space ∧
      (∀ list, ∃ other, ({ h.space with list } : Space).sweep h.memory h.live = (.ok stats, other) ∧
        other.chunks = space.chunks ∧ ∀ i, other.freeChunks.testBit i = space.freeChunks.testBit i) ∧
      (∃ w, Sweep.along h.memory h.live h.space.granules h.space.region.start (Sweep.start h.space) = (none, w) ∧
        w.closeRun.stats = stats ∧ w.closeRun.space = space) ∧
      ∃ again, sweepDead.run { h with phase := .sweeping, space } =
          .ok { stats with deadObjects := 0, reclaimedWords := 0 } { h with phase := .sweeping, space := again } ∧
        again.chunks = space.chunks ∧ ∀ i, again.freeChunks.testBit i = space.freeChunks.testBit i := by
  obtain ⟨ts, stop, htile, hts, ⟨rfl, hmet⟩ | ⟨-, hmet⟩⟩ := hs.walk_cases h.memory
  case inr =>
    have hw : h.space.walk h.memory = _ := hmet _ (Nat.le_refl _)
    rw [hw] at hwalk
    cases hwalk
  have hw : h.space.walk h.memory = _ := hmet _ (Nat.le_refl _)
  obtain ⟨space, hsweep, hrebuilt⟩ := hs.sweep_tiles htile hts h.live
  obtain ⟨again, hagain, hchunks, -, hbits⟩ := hrebuilt.sweep_again hs htile hts
  refine ⟨_, space, sweepDead_run hsweep, ?_, fun list => hrebuilt.sweep_congr hs htile hts ⟨rfl, rfl⟩ rfl, hs.along_eq hsweep, again,
    sweepDead_run hagain, hchunks, hbits⟩
  rw [hw]
  exact hrebuilt.sweptTo hs htile

/-- A heap of one page with eight granules, and in it an object of 100 words at the second granule and a marked one without
a header at the fifth.  The bits of all other granules are set. -/
def strayBits (h : Heap) : Heap :=
  { h with
    space := { h.space with list := .empty, freeChunks := { h.space.freeChunks with words := Memory.blank.setWord 0 0xE9 } }
    memory := Object.format h.memory 4608 100 0
    live := h.live.mark 6144 }

/-- A sweep that merges a dead object with the free granules around it and keeps a marked one. -/
theorem exists_exact_sweep : ∃ (h : Heap) (stats : SweepStats) (space : Space), h.space.Regular ∧
    (h.space.walk h.memory).fault = none ∧ sweepDead.run h = .ok stats { h with phase := .sweeping, space } ∧
    h.space.SweptTo h.live (h.space.walk h.memory).extents stats space ∧
    stats.liveObjects = 1 ∧ stats.deadObjects = 1 ∧ space.chunks = [⟨4096, 256⟩, ⟨6656, 192⟩] := by
  have hrun : (match create ⟨0, 4096, 1024, 1024, 1024, 64⟩ 4096 true false with
      | .ok h =>
        let r := h.strayBits.space.sweep h.strayBits.memory h.strayBits.live
        decide (h.high < addressLimit ∧ (h.strayBits.space.walk h.strayBits.memory).fault = none ∧
          r.1 = .ok ⟨1, 64, 1, 128, 448, 2⟩ ∧ r.2.chunks = [⟨4096, 256⟩, ⟨6656, 192⟩])
      | .error _ => false) = true := by decide +kernel
  split at hrun
  case h_2 => cases hrun
  next h hcreate =>
  obtain ⟨hhigh, hwalk, hstats, hchunks⟩ := of_decide_eq_true hrun
  have hregular : h.strayBits.space.Regular :=
    (create_spec hcreate (by decide) (by decide) hhigh).tiled.toRegular.withBits .empty (Memory.blank.setWord 0 0xE9)
  obtain ⟨stats, space, hsweep, hswept, -⟩ := sweepDead_exact hregular hwalk
  have hspace := sweepDead_run (Prod.ext hstats rfl)
  rw [hsweep] at hspace
  cases hspace
  exact ⟨_, _, _, hregular, hwalk, hsweep, hswept, rfl, rfl, hchunks⟩

end Heap
end MarkSweep
