import MarkSweep.Space.Sweep
/-!
# The granules of a space

All that a space hands out starts and ends at a granule.  `Space.address` gives the start of a granule; the lemmas here
turn sums, differences and bit numbers of such addresses into sums and differences of granule numbers.
-/
namespace MarkSweep

theorem addWords_eq_ok {a : Address} {words : Nat} (h : a + words * wordBytes < addressLimit) :
    a.addWords words = .ok (a + words * wordBytes) := by
  have hm : words * wordBytes < addressLimit := Nat.lt_of_le_of_lt (Nat.le_add_left _ _) h
  simp [Address.addWords, checkedMul, checkedAdd, hm, h, bind, Except.bind]

namespace Space

def granuleBytes (s : Space) : Nat := s.granuleWords * wordBytes

def granules (s : Space) : Nat := s.region.wordSize / s.granuleWords

def address (s : Space) (k : Nat) : Address := s.region.start + k * s.granuleBytes

/-- The granules that hold `words` words, at least one. -/
def granulesFor (s : Space) (words : Nat) : Nat := (max words 1 + (s.granuleWords - 1)) / s.granuleWords

/-- The region is made of whole granules, and both the bitmap of free chunks and 64-bit addresses reach over it. -/
structure Regular (s : Space) : Prop where
  granule_pos : 0 < s.granuleWords
  granule_lt : s.granuleBytes < addressLimit
  start_dvd : s.granuleBytes ∣ s.region.start
  stop_eq : s.region.stop = s.address s.granules
  stop_lt : s.region.stop < addressLimit
  covered : s.freeChunks.covered = s.region
  bit_bytes : s.freeChunks.granuleBytes = s.granuleBytes

/-- Two spaces over the same granules. -/
def SameGrid (s t : Space) : Prop := t.region = s.region ∧ t.granuleWords = s.granuleWords

namespace SameGrid

variable {s t u : Space}

theorem refl (s : Space) : s.SameGrid s := ⟨rfl, rfl⟩

theorem symm (h : s.SameGrid t) : t.SameGrid s := ⟨h.1.symm, h.2.symm⟩

theorem trans (h : s.SameGrid t) (h' : t.SameGrid u) : s.SameGrid u := ⟨h'.1.trans h.1, h'.2.trans h.2⟩

theorem granuleBytes (h : s.SameGrid t) : t.granuleBytes = s.granuleBytes := by
  rw [Space.granuleBytes, Space.granuleBytes, h.2]

theorem granules (h : s.SameGrid t) : t.granules = s.granules := by
  rw [Space.granules, Space.granules, h.1, h.2]

theorem address (h : s.SameGrid t) (k : Nat) : t.address k = s.address k := by
  rw [Space.address, Space.address, h.1, h.granuleBytes]

theorem granulesFor (h : s.SameGrid t) (words : Nat) : t.granulesFor words = s.granulesFor words := by
  rw [Space.granulesFor, Space.granulesFor, h.2]

end SameGrid

/-! ## Addresses of granules -/

theorem address_add (s : Space) (i n : Nat) : s.address (i + n) = s.address i + n * s.granuleBytes := by
  rw [address, address, Nat.add_mul, Nat.add_assoc]

theorem address_add_words (s : Space) (i n : Nat) :
    s.address i + n * s.granuleWords * wordBytes = s.address (i + n) := by
  rw [address_add, granuleBytes, Nat.mul_assoc]

theorem start_le_address (s : Space) (i : Nat) : s.region.start ≤ s.address i := Nat.le_add_right _ _

theorem address_pos {s : Space} (h : 0 < s.region.start) (i : Nat) : 0 < s.address i :=
  Nat.lt_of_lt_of_le h (start_le_address s i)

theorem address_zero (s : Space) : s.address 0 = s.region.start := by
  rw [address, Nat.zero_mul, Nat.add_zero]

theorem words_between (s : Space) (i j : Nat) :
    (s.address j - s.address i) / wordBytes = (j - i) * s.granuleWords := by
  rw [address, address, Nat.add_sub_add_left, ← Nat.sub_mul, granuleBytes, ← Nat.mul_assoc]
  exact Nat.mul_div_cancel _ (by decide)

theorem addressOf_eq {s : Space} {b : Bitmap} (hc : b.covered = s.region) (hb : b.granuleBytes = s.granuleBytes) (k : Nat) :
    b.addressOf k = s.address k := by
  rw [Bitmap.addressOf, address, hc, hb]

theorem granulesFor_pos (s : Space) (words : Nat) (hg : 0 < s.granuleWords) : 0 < s.granulesFor words :=
  Nat.div_pos (by omega) hg

theorem words_le_granulesFor (s : Space) (words : Nat) (hg : 0 < s.granuleWords) :
    words ≤ s.granulesFor words * s.granuleWords :=
  Nat.le_trans (Nat.le_max_left _ 1) (le_roundUp hg)

theorem granulesFor_mono (s : Space) {words words' : Nat} (h : words ≤ words') :
    s.granulesFor words ≤ s.granulesFor words' := Nat.div_le_div_right (by omega)

theorem granulesFor_mul (s : Space) {n : Nat} (hg : 0 < s.granuleWords) (hn : 0 < n) :
    s.granulesFor (n * s.granuleWords) = n := by
  have h1 : 1 ≤ n * s.granuleWords := Nat.mul_pos hn hg
  have h := roundUp_of_dvd hg (Nat.dvd_mul_left s.granuleWords n)
  rw [granulesFor, Nat.max_eq_left h1]
  exact Nat.eq_of_mul_eq_mul_right hg h

theorem refuses_iff (s : Space) {words : Nat} : (!s.canFit words) = true ↔ ¬words ≤ s.region.wordSize := by
  simp [canFit]

namespace Regular

variable {s : Space}

/-- A space stays regular with whatever free list and bits. -/
theorem withBits (hs : s.Regular) (list : FreeList) (words : Memory) :
    ({ s with list, freeChunks := { s.freeChunks with words } } : Space).Regular :=
  ⟨hs.granule_pos, hs.granule_lt, hs.start_dvd, hs.stop_eq, hs.stop_lt, hs.covered, hs.bit_bytes⟩

theorem granuleBytes_pos (h : s.Regular) : 0 < s.granuleBytes := Nat.mul_pos h.granule_pos (by decide)

theorem address_lt (h : s.Regular) {i j : Nat} : s.address i < s.address j ↔ i < j := by
  unfold address
  rw [Nat.add_lt_add_iff_left, Nat.mul_lt_mul_right h.granuleBytes_pos]

theorem address_le (h : s.Regular) {i j : Nat} : s.address i ≤ s.address j ↔ i ≤ j := by
  rw [← Nat.not_lt, ← Nat.not_lt, h.address_lt]

theorem address_inj (h : s.Regular) {i j : Nat} : s.address i = s.address j ↔ i = j := by
  rw [Nat.eq_iff_le_and_ge, h.address_le, h.address_le, ← Nat.eq_iff_le_and_ge]

theorem address_lt_limit (h : s.Regular) {i : Nat} (hi : i ≤ s.granules) : s.address i < addressLimit := by
  rw [← h.address_le, ← h.stop_eq] at hi
  exact Nat.lt_of_le_of_lt hi h.stop_lt

theorem exists_granule (h : s.Regular) {a : Address} (ha : s.region.start ≤ a) :
    ∃ i, s.address i ≤ a ∧ a < s.address (i + 1) := by
  refine ⟨(a - s.region.start) / s.granuleBytes, ?_, ?_⟩
  · rw [address, ← Nat.le_sub_iff_add_le' ha]
    exact Nat.div_mul_le_self _ _
  · rw [address, ← Nat.sub_lt_iff_lt_add' ha]
    exact Nat.lt_mul_of_div_lt (Nat.lt_succ_self _) h.granuleBytes_pos

theorem wordBytes_dvd_address (h : s.Regular) (i : Nat) : wordBytes ∣ s.address i :=
  Nat.dvd_add (Nat.dvd_trans (Nat.dvd_mul_left _ _) h.start_dvd)
    (Nat.dvd_trans (Nat.dvd_mul_left _ _) (Nat.dvd_mul_left s.granuleBytes i))

theorem granuleBytes_dvd_address (h : s.Regular) (i : Nat) : s.granuleBytes ∣ s.address i :=
  Nat.dvd_add h.start_dvd (Nat.dvd_mul_left _ _)

theorem wordSize_eq (h : s.Regular) : s.region.wordSize = s.granules * s.granuleWords := by
  have := words_between s 0 s.granules
  rwa [← h.stop_eq, address_zero, Nat.sub_zero] at this

theorem address_div (h : s.Regular) (i : Nat) :
    s.address i / wordBytes = s.region.start / wordBytes + i * s.granuleWords := by
  obtain ⟨k, hk⟩ := Nat.dvd_trans (Nat.dvd_mul_left wordBytes s.granuleWords) h.start_dvd
  rw [address, granuleBytes, hk, ← Nat.mul_assoc, Nat.add_comm, Nat.add_mul_div_left _ _ (by decide),
    Nat.mul_div_cancel _ (by decide), Nat.mul_div_cancel_left _ (by decide), Nat.add_comm]

/-! ## Bits of granules -/

theorem bitOf_eq {b : Bitmap} (h : s.Regular) (hc : b.covered = s.region) (hb : b.granuleBytes = s.granuleBytes)
    {a : Address} {k : Nat} (h1 : s.address k ≤ a) (h2 : a < s.address (k + 1)) : b.bitOf a = k := by
  have hg := h.granuleBytes_pos
  rw [address_add, Nat.one_mul] at h2
  unfold address Address at *
  have hsub : a - b.covered.start = k * b.granuleBytes + (a - (s.region.start + k * s.granuleBytes)) := by
    rw [hc, hb]; omega
  rw [Bitmap.bitOf, hsub, Nat.mul_comm, Nat.mul_add_div (by omega), Nat.div_eq_of_lt (by omega), Nat.add_zero]

theorem bitOf_address {b : Bitmap} (h : s.Regular) (hc : b.covered = s.region) (hb : b.granuleBytes = s.granuleBytes)
    (k : Nat) : b.bitOf (s.address k) = k :=
  h.bitOf_eq hc hb (Nat.le_refl _) (h.address_lt.2 (Nat.lt_succ_self k))

/-! ## Rounding -/

theorem adjust_eq (h : s.Regular) {words : Nat} (hfit : words ≤ s.region.wordSize) :
    s.adjust words = .ok (s.granulesFor words * s.granuleWords) := by
  have hlt := h.stop_lt
  have hg := h.granule_pos
  have hbytes := h.granule_lt
  refine alignUp_eq_ok_iff.2 ⟨hg, ?_, rfl⟩
  unfold granuleBytes Region.wordSize Region.byteSize wordBytes Address at *
  omega

theorem granulesFor_le (h : s.Regular) {words : Nat} (hpos : 0 < s.granules) (hfit : words ≤ s.region.wordSize) :
    s.granulesFor words ≤ s.granules := by
  rw [h.wordSize_eq] at hfit
  have h1 : 1 ≤ s.granules * s.granuleWords := Nat.mul_pos hpos h.granule_pos
  have hle : max words 1 ≤ s.granules * s.granuleWords := Nat.max_le.2 ⟨hfit, h1⟩
  have := roundUp_lt (v := max words 1) h.granule_pos
  refine Nat.le_of_lt_succ (Nat.lt_of_mul_lt_mul_right (a := s.granuleWords) ?_)
  rw [Nat.succ_mul]
  unfold granulesFor
  omega

end Regular

end Space

end MarkSweep
