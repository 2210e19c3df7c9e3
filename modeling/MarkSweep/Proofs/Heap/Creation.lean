import MarkSweep.Proofs.Heap.Sound
import MarkSweep.Proofs.Reservation
import MarkSweep.Proofs.Space.Creation
/-!
# A new heap

Settings without a problem make a heap of whole pages, all of it one free chunk, whose narrow encoding starts one granule
below the region.
-/
namespace MarkSweep

theorem eq_pow_log2_of_isPowerOfTwo {n : Nat} (h : isPowerOfTwo n = true) : n = 2 ^ n.log2 := by
  unfold isPowerOfTwo at h
  rw [Bool.and_eq_true, beq_iff_eq, Nat.shiftLeft_eq, Nat.one_mul] at h
  exact h.2

theorem checkedSub_eq_ok {a b c : Nat} (h : checkedSub a b = .ok c) : b ≤ a ∧ c = a - b := by
  unfold checkedSub at h
  split at h
  · next hle => cases h; exact ⟨hle, rfl⟩
  · cases h

/-! ## Settings -/

namespace Settings

/-- Settings without a problem: the granule is a power of two within a page, and the heap holds one, but fewer than
narrow references can number. -/
structure Acceptable (s : Settings) : Prop where
  granule_pow : isPowerOfTwo s.granuleWords = true
  granule_le : s.granuleWords * wordBytes ≤ pageBytes
  granule_le_max : s.granuleWords * wordBytes ≤ s.maxHeapSize
  max_lt : s.maxHeapSize / (s.granuleWords * wordBytes) < narrowLimit - 1

theorem problem?_eq_none {s : Settings} (h : s.problem? = .ok none) : s.Acceptable := by
  unfold problem? granuleBytes at h
  split at h
  · cases h
  split at h
  · cases h
  next hpow =>
  obtain ⟨g, hg, h⟩ := except_bind_eq_ok h
  obtain ⟨rfl, -⟩ := checkedMul_eq_ok hg
  split at h
  · cases h
  next hle =>
  split at h
  · cases h
  split at h
  · cases h
  next hmin =>
  split at h
  · cases h
  next hmax =>
  exact ⟨by simpa using hpow, Nat.le_of_not_lt hle, Nat.le_of_not_lt hmin, Nat.lt_of_not_le hmax⟩

theorem validate_eq_ok {s : Settings} (h : s.validate = .ok ()) : s.Acceptable := by
  unfold validate at h
  obtain ⟨p, hp, h⟩ := except_bind_eq_ok h
  cases p with
  | some p => cases h
  | none => exact problem?_eq_none (lift_fault_eq_ok hp)

theorem resolve_eq_ok {s s' : Settings} (h : s.resolve = .ok s') : s'.granuleWords = s.granuleWords ∧
    s'.maxHeapSize = (s.maxHeapSize + (pageBytes - 1)) / pageBytes * pageBytes ∧ s'.minTlabSize = s.minTlabSize ∧
    s'.maxTlabSize = max s.maxTlabSize s.minTlabSize := by
  unfold resolve at h
  obtain ⟨i, -, h⟩ := except_bind_eq_ok h
  obtain ⟨m, hm, h⟩ := except_bind_eq_ok h
  cases h
  exact ⟨rfl, (alignUp_eq_ok_iff.1 hm).2.2, rfl, rfl⟩

namespace Acceptable

variable {s : Settings}

theorem granule_pos (h : s.Acceptable) : 0 < s.granuleWords := by
  rw [eq_pow_log2_of_isPowerOfTwo h.granule_pow]
  exact Nat.two_pow_pos _

theorem bytes_pow (h : s.Acceptable) : s.granuleWords * wordBytes = 2 ^ (s.granuleWords * wordBytes).log2 := by
  have hmul : s.granuleWords * wordBytes = 2 ^ (s.granuleWords.log2 + 3) := by
    rw [Nat.pow_add, ← eq_pow_log2_of_isPowerOfTwo h.granule_pow]
    rfl
  rw [hmul, Nat.log2_two_pow]

theorem bytes_dvd_page (h : s.Acceptable) : s.granuleWords * wordBytes ∣ pageBytes := by
  have hle := h.granule_le
  rw [h.bytes_pow] at hle ⊢
  exact Nat.pow_dvd_pow 2 ((Nat.pow_le_pow_iff_right (m := 12) (by decide)).1 hle)

end Acceptable
end Settings

/-! ## The heap -/

namespace Heap

/-- **What a new heap is**: whole pages from `base` on, all free, without threads and roots. -/
structure New (settings : Settings) (base : Address) (h : Heap) : Prop where
  acceptable : settings.Acceptable
  max_size : h.settings.maxHeapSize = (settings.maxHeapSize + (pageBytes - 1)) / pageBytes * pageBytes
  granule_words : h.space.granuleWords = settings.granuleWords
  region : h.space.region = ⟨base, base + h.settings.maxHeapSize⟩
  granules : h.space.granules * h.space.granuleBytes = h.settings.maxHeapSize
  tiled : h.space.Tiled [⟨.free, 0, h.space.granules⟩]
  framed : h.Framed
  tlabs : h.tlabs = .empty
  mutators : h.mutators = []
  roots : h.roots = .empty
  safepoint : h.safepoint = .initial
  collections : h.collections = 0

theorem create_spec {settings : Settings} {base : Address} {granted hook : Bool} {available : Nat → Bool} {h : Heap}
    (hrun : create settings base granted hook available = .ok h) (hbase : pageBytes ∣ base) (hpos : base ≠ 0)
    (hhigh : h.high < addressLimit) : New settings base h := by
  unfold create at hrun
  obtain ⟨_, hval, hrun⟩ := except_bind_eq_ok hrun
  obtain ⟨resolved, hres, hrun⟩ := except_bind_eq_ok hrun
  obtain ⟨g, hg, hrun⟩ := except_bind_eq_ok hrun
  obtain ⟨r, hr, hrun⟩ := except_bind_eq_ok hrun
  obtain ⟨c, hc, hrun⟩ := except_bind_eq_ok hrun
  obtain ⟨live, hlive, hrun⟩ := except_bind_eq_ok hrun
  obtain ⟨space, hspace, hrun⟩ := except_bind_eq_ok hrun
  obtain ⟨largest, hlargest, hrun⟩ := except_bind_eq_ok hrun
  obtain ⟨low, hlow, hrun⟩ := except_bind_eq_ok hrun
  have hacc := Settings.validate_eq_ok hval
  obtain ⟨hgw, hmax, -⟩ := Settings.resolve_eq_ok (lift_fault_eq_ok hres)
  obtain ⟨rfl, -⟩ := checkedMul_eq_ok (lift_fault_eq_ok hg)
  have hregion := CommittedSpace.create_eq_ok hc
  obtain ⟨-, rfl⟩ := Reservation.reserve_eq_ok hr
  obtain ⟨hcov, hbytes, -, -, hmap⟩ := Bitmap.covering_eq_ok hlive
  obtain ⟨-, rfl⟩ := checkedSub_eq_ok (lift_fault_eq_ok hlow)
  cases hrun
  have hpos' : 0 < base := Nat.pos_of_ne_zero hpos
  have hgpos := hacc.granule_pos
  -- a page is made of granules, and the heap of pages
  obtain ⟨n, hn⟩ : settings.granuleWords * wordBytes ∣ resolved.maxHeapSize := by
    rw [hmax]
    exact Nat.dvd_trans hacc.bytes_dvd_page (Nat.dvd_mul_left _ _)
  rw [Nat.mul_comm] at hn
  have hmaxpos : 0 < resolved.maxHeapSize := by
    have hle := le_roundUp (v := settings.maxHeapSize) (a := pageBytes) (by decide)
    rw [← hmax] at hle
    exact Nat.lt_of_lt_of_le (Nat.mul_pos hgpos (by decide)) (Nat.le_trans hacc.granule_le_max hle)
  have hnpos : 0 < n := Nat.pos_of_ne_zero fun h0 => by
    rw [hn, h0, Nat.zero_mul] at hmaxpos
    exact Nat.lt_irrefl 0 hmaxpos
  rw [hgw] at hspace hbytes hmap
  rw [hregion] at hspace hcov hmap
  have hhigh' : base + resolved.maxHeapSize < addressLimit := by
    obtain ⟨hreg, -⟩ := Space.create_eq_ok_region hspace
    simpa [high, hreg] using hhigh
  obtain ⟨h1, h2, h3, h4⟩ := Space.create_spec hspace hhigh' (Nat.dvd_trans hacc.bytes_dvd_page hbase) (by rw [← hn])
  rw [Space.newTiles, if_neg (Nat.ne_of_gt hnpos)] at h4
  have hgb : space.granuleBytes = settings.granuleWords * wordBytes := by rw [Space.granuleBytes, h2]
  refine ⟨hacc, hmax, h2, h1, ?_, by rw [h3]; exact h4, ⟨?_, ?_, ?_, ?_, ?_, ?_, ?_, ?_, ?_⟩, rfl, rfl, rfl, rfl, rfl⟩
  · simp only [h3, hgb, hn]
  · simp only [h3, hnpos]
  · simp only [h1, hpos']
  · simp only [h1, hcov]
  · simp only [hbytes, hgb]
  · simp only [h3]
    rw [Region.byteSize, Nat.add_sub_cancel_left, hn, Nat.mul_div_cancel _ (Nat.mul_pos hgpos (by decide))] at hmap
    exact hmap
  · simp only [hgb, h1, hregion, hgw]
  · simp only [hgb]
    exact hacc.bytes_pow
  · simp only [h1, hregion]
    exact Nat.min_le_right _ _
  · -- a multiple of the granule, unless the region is less, and then the region is one
    obtain ⟨-, -, rfl⟩ := alignUp_eq_ok_iff.1 (lift_fault_eq_ok hlargest)
    have hwords : n * (settings.granuleWords * wordBytes) / wordBytes = n * settings.granuleWords := by
      rw [← Nat.mul_assoc, Nat.mul_div_cancel _ (by decide)]
    simp only [h2, hgw, hregion, Region.wordSize, Region.byteSize, Nat.add_sub_cancel_left, hn, hwords]
    rw [Nat.min_def]
    split <;> exact Nat.dvd_mul_left _ _

/-- The sizes of the buffers of a new heap, and whether it may commit memory. -/
theorem create_buffers {settings : Settings} {base : Address} {granted hook : Bool} {available : Nat → Bool} {h : Heap}
    (hrun : create settings base granted hook available = .ok h) : h.granted = granted ∧
      h.settings.minTlabSize = settings.minTlabSize ∧
      h.maxTlabWords = min ((max settings.maxTlabSize settings.minTlabSize / wordBytes + (settings.granuleWords - 1)) /
        settings.granuleWords * settings.granuleWords) h.space.region.wordSize := by
  unfold create at hrun
  obtain ⟨_, -, hrun⟩ := except_bind_eq_ok hrun
  obtain ⟨resolved, hres, hrun⟩ := except_bind_eq_ok hrun
  obtain ⟨_, -, hrun⟩ := except_bind_eq_ok hrun
  obtain ⟨_, -, hrun⟩ := except_bind_eq_ok hrun
  obtain ⟨c, -, hrun⟩ := except_bind_eq_ok hrun
  obtain ⟨_, -, hrun⟩ := except_bind_eq_ok hrun
  obtain ⟨space, hspace, hrun⟩ := except_bind_eq_ok hrun
  obtain ⟨largest, hlargest, hrun⟩ := except_bind_eq_ok hrun
  obtain ⟨_, -, hrun⟩ := except_bind_eq_ok hrun
  obtain ⟨hgw, -, hmin, hmax⟩ := Settings.resolve_eq_ok (lift_fault_eq_ok hres)
  obtain ⟨-, -, rfl⟩ := alignUp_eq_ok_iff.1 (lift_fault_eq_ok hlargest)
  cases hrun
  refine ⟨rfl, hmin, ?_⟩
  rw [← hmax, ← hgw, (Space.create_eq_ok_region hspace).1]

/-- **A new heap is sound.** -/
theorem New.sound {settings : Settings} {base : Address} {h : Heap} (hnew : New settings base h) :
    h.Sound [⟨.free, 0, h.space.granules⟩] := by
  obtain ⟨-, -, -, -, -, htiled, hframed, htlabs, hmutators, -, hsafe, -⟩ := hnew
  have hget : ∀ id, h.tlabs.get id = .empty := by
    intro id
    rw [htlabs]
    exact TlabRegistry.get_of_size_le (Nat.zero_le _)
  refine ⟨⟨htiled, ?_, ⟨?_, ?_, ?_, ?_, ?_⟩, ?_⟩, hframed,
    ⟨?_, ?_⟩, ?_, ?_, ?_, ?_⟩
  · intro t ht hk
    rw [List.mem_singleton] at ht
    rw [ht] at hk
    cases hk
  · rw [htlabs]
    exact List.nodup_nil
  · intro id hid
    rw [htlabs] at hid
    cases hid
  · intro id _
    rw [hget]
    rfl
  · intro id
    rw [hget]
    exact .inl ⟨rfl, rfl, fun i n hm => by rw [List.mem_singleton] at hm; cases hm⟩
  · intro id
    rw [hget]
    exact .empty _
  · intro t ht hfree
    rw [List.mem_singleton] at ht
    rw [ht] at hfree
    exact absurd rfl hfree
  · rw [hmutators]
    exact List.nodup_nil
  · intro m hm
    rw [hmutators] at hm
    cases hm
  · rw [hmutators, hsafe]
    exact ⟨rfl, rfl, rfl, rfl, rfl, rfl⟩
  · rw [hmutators]
    exact List.nodup_nil
  · intro m hm
    rw [hmutators] at hm
    cases hm
  · intro m hm
    rw [hmutators] at hm
    cases hm

/-! ## The largest buffer -/

section Largest

variable {settings : Settings} {base : Address} {granted hook : Bool} {available : Nat → Bool} {h : Heap}

theorem New.granules_pos (hnew : New settings base h) : 0 < h.space.granules :=
  (hnew.tiled.tiling.bounds (List.mem_singleton_self _)).2.1

/-- Where the settings allow a word, the largest buffer has a granule at least. -/
theorem create_largestTlab (run : create settings base granted hook available = .ok h) (hnew : New settings base h)
    (hword : wordBytes ≤ max settings.maxTlabSize settings.minTlabSize) : h.largestTlab = h.maxTlabWords := by
  obtain ⟨-, -, hmax⟩ := create_buffers run
  have hg := hnew.tiled.granule_pos
  refine Nat.max_eq_left ?_
  rw [hmax, ← hnew.granule_words, hnew.tiled.wordSize_eq]
  refine Nat.le_min.2 ⟨Nat.le_mul_of_pos_left _ (Nat.div_pos ?_ hg), Nat.le_mul_of_pos_left _ hnew.granules_pos⟩
  have hone : 1 ≤ max settings.maxTlabSize settings.minTlabSize / wordBytes := (Nat.one_le_div_iff (by decide)).2 hword
  omega

theorem create_maxTlabWords_pos (run : create settings base granted hook available = .ok h) (hnew : New settings base h)
    (hword : wordBytes ≤ max settings.maxTlabSize settings.minTlabSize) : 0 < h.maxTlabWords := by
  rw [← create_largestTlab run hnew hword]
  exact Nat.lt_of_lt_of_le hnew.tiled.granule_pos (Nat.le_max_right _ _)

theorem create_maxTlabWords_eq_zero (run : create settings base granted hook available = .ok h) (hnew : New settings base h)
    (hword : max settings.maxTlabSize settings.minTlabSize < wordBytes) : h.maxTlabWords = 0 := by
  obtain ⟨-, -, hmax⟩ := create_buffers run
  have hg := hnew.acceptable.granule_pos
  rw [hmax, Nat.div_eq_of_lt hword, Nat.zero_add, Nat.div_eq_of_lt (Nat.sub_lt hg Nat.one_pos), Nat.zero_mul, Nat.zero_min]

end Largest

end Heap
end MarkSweep
