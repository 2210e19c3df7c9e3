import MarkSweep.Proofs.Bitmap.Search
import MarkSweep.Proofs.Space.Tiled
/-!
# What a walk meets

Whatever the memory and the free-chunk bitmap hold, a walk divides the granules into tiles up to where it stops
(`Regular.walk_cases`): at the end of the space, or before an object whose header claims more words than there are.
Where the bitmap agrees with a tiling and every tile in use starts with a header that rounds up to it, the walk meets
just these tiles, and nothing stops it (`Tiled.walk_eq`).
-/
namespace MarkSweep

theorem Tiling.length_add_le : ∀ {ts : List Tile} {lo hi : Nat}, Tiling lo ts hi → ts.length + lo ≤ hi
  | [], lo, hi, h => by
    have : lo = hi := h
    simp; omega
  | t :: ts, lo, hi, ⟨hfirst, hpos, hrest⟩ => by
    have ih := length_add_le hrest
    unfold Tile.stop at ih
    simp only [List.length_cons]
    omega

namespace Space

/-- The stretch that a walk meets at a tile. -/
def extent (s : Space) (t : Tile) : Extent :=
  if t.IsFree then .free (s.address t.first) (t.count * s.granuleWords)
  else .object (s.address t.first) (t.count * s.granuleWords)

theorem extent_words (s : Space) (t : Tile) : (s.extent t).words = t.count * s.granuleWords := by
  unfold extent
  split <;> rfl

theorem extent_start (s : Space) (t : Tile) : (s.extent t).start = s.address t.first := by
  unfold extent
  split <;> rfl

/-- The tile starts with a header whose size rounds up to the tile. -/
def Headed (s : Space) (m : Memory) (t : Tile) : Prop :=
  s.granulesFor (Object.size m (s.address t.first)) = t.count

theorem SameGrid.headed {s t : Space} (h : s.SameGrid t) {m : Memory} {u : Tile} (hu : s.Headed m u) : t.Headed m u := by
  unfold Headed at *
  rw [h.granulesFor, h.address]
  exact hu

/-- A walk that stands at the first granule of the tile meets just the tile: a run of set bits up to a clear one or to
the end of the space, or a clear bit and a header whose size rounds up to the tile. -/
structure Meets (s : Space) (m : Memory) (t : Tile) : Prop where
  count_pos : 0 < t.count
  stop_le : t.stop ≤ s.granules
  bits : t.IsFree → ∀ i, t.Covers i → s.freeChunks.testBit i = true
  bit_stop : t.IsFree → t.stop < s.granules → s.freeChunks.testBit t.stop = false
  bit_first : ¬t.IsFree → s.freeChunks.testBit t.first = false
  headed : ¬t.IsFree → s.Headed m t

/-- A walk that stands at granule `k` finds an object there that claims more words than the space has left. -/
structure Overruns (s : Space) (m : Memory) (k : Nat) : Prop where
  lt : k < s.granules
  bit : s.freeChunks.testBit k = false
  size : (s.granules - k) * s.granuleWords < Object.size m (s.address k)

/-! ## One extent -/

theorem Regular.isMarked_address {s : Space} (h : s.Regular) (k : Nat) :
    s.freeChunks.isMarked (s.address k) = s.freeChunks.testBit k := by
  rw [Bitmap.isMarked, h.bitOf_address h.covered h.bit_bytes]

theorem Regular.nextClear_address {s : Space} (h : s.Regular) (k : Nat) :
    s.freeChunks.nextClear (s.address k) s.region.stop = s.address (s.freeChunks.findBit false k s.granules) := by
  rw [Bitmap.nextClear, h.stop_eq, h.bitOf_address h.covered h.bit_bytes, h.bitOf_address h.covered h.bit_bytes,
    addressOf_eq h.covered h.bit_bytes]

namespace Meets

variable {s : Space} {m : Memory} {t : Tile}

theorem first_lt (h : s.Meets m t) : t.first < s.granules := by
  have h1 := h.count_pos
  have h2 := h.stop_le
  unfold Tile.stop at h2
  omega

theorem bit_eq (h : s.Meets m t) : s.freeChunks.testBit t.first = decide t.IsFree := by
  by_cases hfree : t.IsFree
  · rw [h.bits hfree _ (Tiling.covers_first h.count_pos), decide_eq_true hfree]
  · rw [h.bit_first hfree, decide_eq_false hfree]

theorem size_le (h : s.Meets m t) (hs : s.Regular) (hfree : ¬t.IsFree) :
    Object.size m (s.address t.first) ≤ (s.granules - t.first) * s.granuleWords := by
  have hsize := s.words_le_granulesFor (Object.size m (s.address t.first)) hs.granule_pos
  rw [h.headed hfree] at hsize
  have hle : t.count ≤ s.granules - t.first := by
    have := h.stop_le
    unfold Tile.stop at this
    omega
  exact Nat.le_trans hsize (Nat.mul_le_mul_right _ hle)

/-- The size that a tile in use starts with rounds up to the tile. -/
theorem adjust_size (h : s.Meets m t) (hs : s.Regular) (hfree : ¬t.IsFree) :
    s.adjust (Object.size m (s.address t.first)) = .ok (t.count * s.granuleWords) := by
  have hfit : Object.size m (s.address t.first) ≤ s.region.wordSize := by
    rw [hs.wordSize_eq]
    exact Nat.le_trans (h.size_le hs hfree) (Nat.mul_le_mul_right _ (Nat.sub_le _ _))
  rw [hs.adjust_eq hfit, h.headed hfree]

/-- **The stretch at the start of a tile is the tile.** -/
theorem extentAt_eq (h : s.Meets m t) (hs : s.Regular) : s.extentAt m (s.address t.first) = .ok (s.extent t) := by
  unfold extentAt extent
  rw [hs.isMarked_address, h.bit_eq]
  by_cases hfree : t.IsFree
  · have hfind : s.freeChunks.findBit false t.first s.granules = t.stop :=
      Bitmap.findBit_eq (by unfold Tile.stop; omega) h.stop_le
        (fun i h1 h2 => by rw [h.bits hfree i ⟨h1, h2⟩]; rfl) (h.bit_stop hfree)
    simp only [hfree, decide_true, if_true]
    rw [hs.nextClear_address, hfind, words_between]
    simp [Tile.stop]
  · simp only [hfree, decide_false, Bool.false_eq_true, if_false]
    rw [hs.stop_eq, words_between, if_neg (Nat.not_lt.2 (h.size_le hs hfree)), h.adjust_size hs hfree]
    rfl

end Meets

theorem Overruns.extentAt_eq {s : Space} {m : Memory} {k : Nat} (h : s.Overruns m k) (hs : s.Regular) :
    s.extentAt m (s.address k) = .error (.objectPastEnd (s.address k) (Object.size m (s.address k))) := by
  unfold extentAt
  rw [hs.isMarked_address, h.bit, if_neg Bool.false_ne_true]
  simp only
  rw [hs.stop_eq, words_between, if_pos h.size]

/-! ## The walk -/

namespace Regular

variable {s : Space}

/-- **At each granule a walk meets a tile or an overrun**, whatever the memory and the bits are. -/
theorem meets_or_overruns (h : s.Regular) (m : Memory) {k : Nat} (hk : k < s.granules) :
    (∃ t : Tile, t.first = k ∧ s.Meets m t) ∨ s.Overruns m k := by
  cases hbit : s.freeChunks.testBit k with
  | true =>
    obtain ⟨hlo, hhi, hskip, hhit⟩ := s.freeChunks.findBit_spec false (Nat.le_of_lt hk)
    generalize s.freeChunks.findBit false k s.granules = stop at hlo hhi hskip hhit
    have hlt : k < stop := by
      refine Nat.lt_of_le_of_ne hlo ?_
      rintro rfl
      rw [hhit hk] at hbit
      cases hbit
    have hstop : k + (stop - k) = stop := by omega
    refine .inl ⟨⟨.free, k, stop - k⟩, rfl, by simp only; omega, hstop.le.trans hhi, fun _ i hi => ?_, fun _ => ?_,
      fun hfree => absurd rfl hfree, fun hfree => absurd rfl hfree⟩
    · exact hskip i hi.1 (Nat.lt_of_lt_of_eq hi.2 hstop)
    · simp only [Tile.stop, hstop]
      exact hhit
  | false =>
    by_cases hsize : (s.granules - k) * s.granuleWords < Object.size m (s.address k)
    · exact .inr ⟨hk, hbit, hsize⟩
    -- the size is not rounded yet, but the words left are whole granules, so the rounded size fits as well
    have hfits : s.granulesFor (Object.size m (s.address k)) ≤ s.granules - k := by
      have hlt := roundUp_lt (v := max (Object.size m (s.address k)) 1) h.granule_pos
      have hleft : 1 ≤ (s.granules - k) * s.granuleWords := Nat.mul_pos (by omega) h.granule_pos
      have hmul : s.granulesFor (Object.size m (s.address k)) * s.granuleWords < (s.granules - k + 1) * s.granuleWords := by
        rw [Nat.add_mul, Nat.one_mul]
        unfold granulesFor
        omega
      exact Nat.lt_succ_iff.1 (Nat.lt_of_mul_lt_mul_right hmul)
    refine .inl ⟨⟨.object, k, s.granulesFor (Object.size m (s.address k))⟩, rfl, s.granulesFor_pos _ h.granule_pos,
      by simp only [Tile.stop]; omega, ?_, ?_, fun _ => hbit, fun _ => rfl⟩
    all_goals intro hfree; cases hfree

/-- A walk steps over the tiles it meets. -/
theorem walkFrom_tiles (h : s.Regular) {m : Memory} : ∀ {ts : List Tile} {lo hi n : Nat} {met : List Extent},
    Tiling lo ts hi → (∀ t ∈ ts, s.Meets m t) →
      s.walkFrom m (ts.length + n) (s.address lo) met = s.walkFrom m n (s.address hi) ((ts.map s.extent).reverse ++ met)
  | [], lo, hi, n, met, hlo, _ => by
    obtain rfl : lo = hi := hlo
    rw [List.length_nil, Nat.zero_add]
    rfl
  | t :: ts, lo, hi, n, met, ⟨hlo, _, hrest⟩, hts => by
    have ht := hts t (by simp)
    subst hlo
    rw [List.length_cons, Nat.add_right_comm, walkFrom,
      if_pos (by rw [h.stop_eq]; exact h.address_lt.2 ht.first_lt), ht.extentAt_eq h]
    simp only
    rw [extent_words, address_add_words, ← Tile.stop, h.walkFrom_tiles hrest fun u hu => hts u (by simp [hu])]
    simp

theorem walkFrom_stop (h : s.Regular) (m : Memory) (n : Nat) (met : List Extent) :
    s.walkFrom m n (s.address s.granules) met = ⟨met.reverse, none⟩ := by
  cases n with
  | zero => rfl
  | succ n => rw [walkFrom, if_neg (by rw [h.stop_eq]; exact Nat.lt_irrefl _)]

theorem walkFrom_overruns (h : s.Regular) {m : Memory} {k : Nat} (hk : s.Overruns m k) (n : Nat) (met : List Extent) :
    s.walkFrom m (n + 1) (s.address k) met =
      ⟨met.reverse, some (.objectPastEnd (s.address k) (Object.size m (s.address k)))⟩ := by
  rw [walkFrom, if_pos (by rw [h.stop_eq]; exact h.address_lt.2 hk.lt), hk.extentAt_eq h]

/-- Where tiles that a walk meets reach to the end, the walk is these. -/
theorem walkFrom_complete (h : s.Regular) {m : Memory} {ts : List Tile} (htile : Tiling 0 ts s.granules)
    (hts : ∀ t ∈ ts, s.Meets m t) {n : Nat} (hn : s.granules ≤ n) :
    s.walkFrom m n s.region.start [] = ⟨ts.map s.extent, none⟩ := by
  have hlen := htile.length_add_le
  obtain ⟨n, rfl⟩ := Nat.exists_eq_add_of_le (show ts.length ≤ n by omega)
  rw [← address_zero, h.walkFrom_tiles htile hts, h.walkFrom_stop]
  simp

theorem walkFrom_stopped (h : s.Regular) {m : Memory} {ts : List Tile} {k : Nat} (htile : Tiling 0 ts k)
    (hts : ∀ t ∈ ts, s.Meets m t) (hk : s.Overruns m k) {n : Nat} (hn : s.granules ≤ n) :
    s.walkFrom m n s.region.start [] =
      ⟨ts.map s.extent, some (.objectPastEnd (s.address k) (Object.size m (s.address k)))⟩ := by
  have hlen := htile.length_add_le
  have hlt := hk.lt
  obtain ⟨n, rfl⟩ := Nat.exists_eq_add_of_le (show ts.length + 1 ≤ n by omega)
  rw [← address_zero, Nat.add_right_comm, Nat.add_assoc, h.walkFrom_tiles htile hts, h.walkFrom_overruns hk]
  simp

/-- From every granule on, tiles that a walk meets reach to the end of the space or to an overrun. -/
theorem exists_tiles (h : s.Regular) (m : Memory) (k : Nat) (hk : k ≤ s.granules) :
    ∃ ts stop, Tiling k ts stop ∧ (∀ t ∈ ts, s.Meets m t) ∧ (stop = s.granules ∨ s.Overruns m stop) := by
  rcases Nat.eq_or_lt_of_le hk with rfl | hlt
  · exact ⟨[], _, rfl, List.forall_mem_nil _, .inl rfl⟩
  rcases h.meets_or_overruns m hlt with ⟨t, rfl, ht⟩ | hover
  · have hpos := ht.count_pos
    obtain ⟨ts, stop, htile, hts, hend⟩ := h.exists_tiles m t.stop ht.stop_le
    exact ⟨t :: ts, stop, ⟨rfl, hpos, htile⟩, List.forall_mem_cons.2 ⟨ht, hts⟩, hend⟩
  · exact ⟨[], k, rfl, List.forall_mem_nil _, .inr hover⟩
termination_by s.granules - k
decreasing_by unfold Tile.stop; omega

/-- **A walk meets tiles up to where it stops**, whatever the memory and the bits are: to the end of the space, or to an
object that claims more words than there are.  More steps than there are granules are never made. -/
theorem walk_cases (h : s.Regular) (m : Memory) :
    ∃ ts stop, Tiling 0 ts stop ∧ (∀ t ∈ ts, s.Meets m t) ∧
      ((stop = s.granules ∧ ∀ n, s.granules ≤ n → s.walkFrom m n s.region.start [] = ⟨ts.map s.extent, none⟩) ∨
        (s.Overruns m stop ∧ ∀ n, s.granules ≤ n → s.walkFrom m n s.region.start [] =
          ⟨ts.map s.extent, some (.objectPastEnd (s.address stop) (Object.size m (s.address stop)))⟩)) := by
  obtain ⟨ts, stop, htile, hts, hend⟩ := h.exists_tiles m 0 (Nat.zero_le _)
  refine ⟨ts, stop, htile, hts, ?_⟩
  rcases hend with rfl | hover
  · exact .inl ⟨rfl, fun n hn => h.walkFrom_complete htile hts hn⟩
  · exact .inr ⟨hover, fun n hn => h.walkFrom_stopped htile hts hover hn⟩

end Regular

/-! ## The walk over a tiled space -/

/-- Every tile that is not free starts with a header whose size rounds up to it. -/
def Parsable (s : Space) (m : Memory) (ts : List Tile) : Prop := ∀ t ∈ ts, ¬t.IsFree → s.Headed m t

namespace Tiled

variable {s : Space} {ts : List Tile} {t : Tile}

/-- A free tile ends where the space ends or where words are in use. -/
theorem testBit_stop (h : s.Tiled ts) (ht : t ∈ ts) (hfree : t.IsFree) (hlt : t.stop < s.granules) :
    s.freeChunks.testBit t.stop = false := by
  obtain ⟨pre, post, rfl⟩ := List.append_of_mem ht
  have hrest := h.tiling.around.2.2
  cases post with
  | nil =>
    have : t.stop = s.granules := hrest
    omega
  | cons u post =>
    obtain ⟨hfirst, hpos, -⟩ := hrest
    have hu : ¬u.IsFree := fun hu =>
      (separated_cons.1 (separated_append.1 h.separated).2.1).1 u rfl ⟨hfree, hu⟩
    rw [h.bits u (by simp) t.stop ⟨Nat.le_of_eq hfirst, by unfold Tile.stop at *; omega⟩, decide_eq_false hu]

theorem meets (h : s.Tiled ts) (ht : t ∈ ts) {m : Memory} (hhead : ¬t.IsFree → s.Headed m t) : s.Meets m t where
  count_pos := h.count_pos ht
  stop_le := h.stop_le ht
  bits hfree i hi := by rw [h.bits t ht i hi, decide_eq_true hfree]
  bit_stop := h.testBit_stop ht
  bit_first hfree := by rw [h.bits t ht _ (Tiling.covers_first (h.count_pos ht)), decide_eq_false hfree]
  headed := hhead

/-- **A walk meets the tiles in order, and nothing stops it.** -/
theorem walk_eq (h : s.Tiled ts) {m : Memory} (hp : s.Parsable m ts) : s.walk m = ⟨ts.map s.extent, none⟩ :=
  h.walkFrom_complete h.tiling (fun t ht => h.meets ht (hp t ht)) (Nat.le_refl _)

/-- The starts of the tiles in use ascend. -/
theorem starts_ascending (h : s.Tiled ts) : ((usedTiles ts).map fun t => s.address t.first).Pairwise (· < ·) := by
  rw [List.pairwise_map]
  apply (h.tiling.pairwise.filter _).imp_of_mem
  intro t u ht _ hle
  have hpos := h.count_pos (List.mem_filter.1 ht).1
  exact h.address_lt.2 (Nat.lt_of_lt_of_le (Nat.lt_add_of_pos_right hpos) hle)

/-- **The objects of a space are the starts of the tiles in use.** -/
theorem objects_eq (h : s.Tiled ts) {m : Memory} (hp : s.Parsable m ts) :
    s.objects m = .ok ((usedTiles ts).map fun t => s.address t.first) := by
  unfold objects usedTiles
  simp only [h.walk_eq hp, List.filterMap_map]
  congr 1
  clear h hp
  induction ts with
  | nil => rfl
  | cons t ts ih =>
    by_cases hfree : t.IsFree
    · rw [List.filterMap_cons_none (by simp [extent, hfree, Extent.object?]), ih,
        List.filter_cons_of_neg (by simp [hfree])]
    · rw [List.filterMap_cons_some (b := s.address t.first) (by simp [extent, hfree, Extent.object?]), ih,
        List.filter_cons_of_pos (by simp [hfree]), List.map_cons]

end Tiled

end Space

end MarkSweep
