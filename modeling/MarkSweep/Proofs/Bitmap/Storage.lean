import MarkSweep.Proofs.Bitmap.Sets
/-!
# What the storage of a bitmap covers

A storage is sized for every granule of a region that has been begun, and accepted for a map of the whole granules alone.
So a storage of the computed size is never refused (`computeSize_spec`), and a map has a word for every address of its
region unless a last granule that is not whole needs a word of its own (`covers_iff`).
-/
namespace MarkSweep

theorem divCeil_of_pos {n d : Nat} (hd : 0 < d) : divCeil n d = .ok ((n + (d - 1)) / d) := by
  rw [divCeil, if_neg (Nat.ne_of_gt hd)]

/-- A position lies in one of the parts that have been begun. -/
theorem div_lt_divCeil {i n d : Nat} (hd : 0 < d) (h : i < n) : i / d < (n + (d - 1)) / d := by
  rw [Nat.div_lt_iff_lt_mul hd]
  exact Nat.lt_of_lt_of_le h (le_roundUp hd)

theorem checkedMul_of_lt {a b : Nat} (h : a * b < addressLimit) : checkedMul a b = .ok (a * b) := by
  rw [checkedMul, if_pos h]

namespace Bitmap

/-- The number of the word that holds the bit of `a`. -/
def wordOf (b : Bitmap) (a : Address) : Nat := b.bitOf a / mapWordBits

/-- Marking, clearing and testing `a` write no word but number `k`, and depend on no other. -/
structure Accesses (b : Bitmap) (a : Address) (k : Nat) : Prop where
  mark : ∀ j, j ≠ k → (b.mark a).words.word j = b.words.word j
  clear : ∀ j, j ≠ k → (b.clear a).words.word j = b.words.word j
  reads : ∀ words : Memory, words.word k = b.words.word k →
    ({ b with words }.mark a).words.word k = (b.mark a).words.word k ∧
    ({ b with words }.clear a).words.word k = (b.clear a).words.word k ∧
    ({ b with words } : Bitmap).isMarked a = b.isMarked a

variable {r : Region} {storage : BitmapStorage} {storageWords g bytes : Nat} {b : Bitmap} {a : Address}

theorem accesses_wordOf (b : Bitmap) (a : Address) : b.Accesses a (b.wordOf a) where
  mark j hj := (word_modifyWord ..).trans (if_neg (Ne.symm hj))
  clear j hj := (word_modifyWord ..).trans (if_neg (Ne.symm hj))
  reads words hwords := by
    have hword : mapWord words (b.bitOf a / mapWordBits) = mapWord b.words (b.bitOf a / mapWordBits) :=
      congrArg UInt64.ofNat hwords
    refine ⟨?_, ?_, ?_⟩
    · simp only [Bitmap.mark, bitOf, wordOf] at hword ⊢
      rw [word_modifyWord, word_modifyWord, if_pos rfl, if_pos rfl, hword]
    · simp only [Bitmap.clear, bitOf, wordOf] at hword ⊢
      rw [word_modifyWord, word_modifyWord, if_pos rfl, if_pos rfl, hword]
    · simp only [isMarked, testBit, bitOf] at hword ⊢
      rw [hword]

/-! ## The map -/

/-- A storage is accepted for its words, and the map has as many as the whole granules need. -/
theorem ofStorage_of_le (hg : isPowerOfTwo g = true) (hword : wordBytes ≤ g)
    (hle : (r.byteSize / g + (mapWordBits - 1)) / mapWordBits ≤ storageWords) :
    ofStorage r storage storageWords g =
      .ok ⟨r, g, (r.byteSize / g + (mapWordBits - 1)) / mapWordBits, storage, .blank⟩ := by
  have hlarge := Nat.not_lt_of_le hle
  unfold ofStorage
  rw [hg, decide_eq_true hword]
  simp only [divCeil_of_pos (d := mapWordBits) (by decide), bind, Except.bind, pure, Except.pure, Bool.and_self,
    Bool.not_true, Bool.false_eq_true, if_false, hlarge]

theorem mapWords_of_ofStorage (h : ofStorage r storage storageWords g = .ok b) :
    b.mapWords = (r.byteSize / g + (mapWordBits - 1)) / mapWordBits ∧ b.mapWords ≤ storageWords := by
  unfold ofStorage at h
  split at h
  · cases h
  obtain ⟨words, hwords, h⟩ := except_bind_eq_ok h
  rw [divCeil_of_pos (by decide)] at hwords
  cases hwords
  split at h
  · cases h
  next hle =>
  cases h
  exact ⟨rfl, Nat.le_of_not_lt hle⟩

/-- **Which regions a map covers**: those that end with a whole granule, or with one whose word the map has anyway. -/
theorem wordOf_lt_mapWords_iff (h : ofStorage r storage storageWords g = .ok b) :
    (∀ a, r.contains a = true → b.wordOf a < b.mapWords) ↔ g ∣ r.byteSize ∨ ¬mapWordBits ∣ r.byteSize / g := by
  obtain ⟨hcovered, hbytes, -, hword, -⟩ := ofStorage_eq_ok h
  obtain ⟨hmap, -⟩ := mapWords_of_ofStorage h
  have hg : 0 < g := Nat.lt_of_lt_of_le (by decide) hword
  have hbit (a : Address) : b.bitOf a = (a - r.start) / g := by rw [bitOf, hcovered, hbytes]
  simp only [wordOf, hbit, hmap, Region.contains_iff]
  constructor
  · -- the granule behind the whole ones has a bit of its own if it has an address
    intro hall
    refine Classical.or_iff_not_imp_left.2 fun hpart hdvd => ?_
    have hlt : r.byteSize / g * g < r.byteSize :=
      Nat.lt_of_le_of_ne (Nat.div_mul_le_self _ _) fun he => hpart ⟨_, (Nat.mul_comm g _ ▸ he.symm)⟩
    have hlast := hall (r.start + r.byteSize / g * g) ⟨Nat.le_add_right _ _, Nat.add_lt_of_lt_sub' hlt⟩
    rw [Nat.add_sub_cancel_left, Nat.mul_div_cancel _ hg] at hlast
    unfold mapWordBits at *
    omega
  · rintro hfits a ⟨hstart, hstop⟩
    have hlt : a - r.start < r.byteSize := Nat.sub_lt_sub_right hstart hstop
    rcases hfits with ⟨n, hn⟩ | hdvd
    · rw [hn] at hlt ⊢
      rw [Nat.mul_div_cancel_left _ hg]
      exact div_lt_divCeil (by decide) (Nat.div_lt_of_lt_mul hlt)
    · have hle : (a - r.start) / g / mapWordBits ≤ r.byteSize / g / mapWordBits :=
        Nat.div_le_div_right (Nat.div_le_div_right (Nat.le_of_lt hlt))
      refine Nat.lt_of_le_of_lt hle ?_
      unfold mapWordBits at *
      omega

/-! ## The storage -/

theorem words_le_of_alignUp {n : Nat} (h : alignUp (n * wordBytes) pageBytes = .ok bytes) : n ≤ bytes / wordBytes := by
  obtain ⟨-, -, rfl⟩ := alignUp_eq_ok_iff.1 h
  rw [Nat.le_div_iff_mul_le (by decide)]
  exact le_roundUp (by decide)

/-- **A storage of the computed size** has a word for every address of the region, and is accepted. -/
theorem computeSize_spec (hg : isPowerOfTwo g = true) (hword : wordBytes ≤ g) (hr : r.byteSize < addressLimit) :
    ∃ bytes, computeSize r.byteSize g = .ok bytes ∧ bytes ≤ r.byteSize + 2 * pageBytes ∧
      ∀ storage, ∃ b, ofStorage r storage (bytes / wordBytes) g = .ok b ∧
        ∀ a, r.contains a = true → b.wordOf a < bytes / wordBytes := by
  have hpos : 0 < g := Nat.lt_of_lt_of_le (by decide) hword
  obtain ⟨bits, hbits⟩ : ∃ bits, bits = (r.byteSize + (g - 1)) / g := ⟨_, rfl⟩
  obtain ⟨words, hwords⟩ : ∃ words, words = (bits + (mapWordBits - 1)) / mapWordBits := ⟨_, rfl⟩
  have hbits_le : bits ≤ r.byteSize / wordBytes + 1 := by
    rw [hbits]
    calc (r.byteSize + (g - 1)) / g ≤ (r.byteSize + g) / g := Nat.div_le_div_right (Nat.add_le_add_left (Nat.sub_le _ _) _)
      _ = r.byteSize / g + 1 := Nat.add_div_right _ hpos
      _ ≤ r.byteSize / wordBytes + 1 := Nat.succ_le_succ (Nat.div_le_div_left hword (by decide))
  have hlt : words * wordBytes + (pageBytes - 1) < addressLimit := by
    unfold mapWordBits wordBytes pageBytes addressLimit at *
    omega
  obtain ⟨bytes, hbytes⟩ : ∃ bytes, alignUp (words * wordBytes) pageBytes = .ok bytes :=
    ⟨_, alignUp_eq_ok_iff.2 ⟨by decide, hlt, rfl⟩⟩
  have hsize : words ≤ bytes / wordBytes := words_le_of_alignUp hbytes
  refine ⟨bytes, ?_, ?_, fun storage => ?_⟩
  · unfold computeSize
    rw [divCeil_of_pos hpos, ← hbits]
    simp only [bind, Except.bind]
    rw [divCeil_of_pos (by decide), ← hwords]
    simp only [checkedMul_of_lt (Nat.lt_of_le_of_lt (Nat.le_add_right _ _) hlt), hbytes]
  · obtain ⟨-, -, rfl⟩ := alignUp_eq_ok_iff.1 hbytes
    have hround := roundUp_lt (v := words * wordBytes) (a := pageBytes) (by decide)
    unfold mapWordBits wordBytes pageBytes at *
    omega
  · have hwhole : r.byteSize / g ≤ bits := by
      rw [hbits]
      exact Nat.div_le_div_right (Nat.le_add_right _ _)
    refine ⟨_, ofStorage_of_le hg hword (Nat.le_trans ?_ hsize), ?_⟩
    · rw [hwords]
      exact Nat.div_le_div_right (Nat.add_le_add_right hwhole _)
    · intro a ha
      obtain ⟨hstart, hstop⟩ := Region.contains_iff.1 ha
      have hbit : (a - r.start) / g < bits := hbits ▸ div_lt_divCeil hpos (Nat.sub_lt_sub_right hstart hstop)
      exact Nat.lt_of_lt_of_le (hwords ▸ div_lt_divCeil (by decide) hbit) hsize

/-- **What a bitmap covers.**  A storage of the computed size is accepted.  In an accepted storage every access is to one
word, which belongs to the map for all addresses of the region exactly if no last granule that is not whole begins a new
word of the map. -/
theorem covers_iff (hg : isPowerOfTwo g = true) (hword : wordBytes ≤ g) (hr : r.byteSize < addressLimit) :
    (∃ bytes, computeSize r.byteSize g = .ok bytes ∧ ∀ storage, ∃ b, ofStorage r storage (bytes / wordBytes) g = .ok b ∧
      ∀ a, r.contains a = true → b.wordOf a < bytes / wordBytes) ∧
    ∀ storage storageWords b, ofStorage r storage storageWords g = .ok b →
      (∀ a, b.Accesses a (b.wordOf a)) ∧ b.mapWords ≤ storageWords ∧
      ((∀ a, r.contains a = true → b.wordOf a < b.mapWords) ↔ g ∣ r.byteSize ∨ ¬mapWordBits ∣ r.byteSize / g) := by
  refine ⟨?_, fun storage storageWords b hb => ⟨b.accesses_wordOf, ?_, ?_⟩⟩
  · obtain ⟨bytes, hbytes, -, hstorage⟩ := computeSize_spec hg hword hr
    exact ⟨bytes, hbytes, hstorage⟩
  · exact (mapWords_of_ofStorage hb).2
  · exact wordOf_lt_mapWords_iff hb

/-- A storage of one word is accepted for 65 granules, the last of them half a granule. -/
theorem exists_uncovered : ∃ b, ofStorage ⟨4096, 5128⟩ ⟨4096, "map", true⟩ 1 16 = .ok b ∧
    ¬∀ a, (⟨4096, 5128⟩ : Region).contains a = true → b.wordOf a < b.mapWords := by
  have hb : ofStorage ⟨4096, 5128⟩ ⟨4096, "map", true⟩ 1 16 = .ok ⟨⟨4096, 5128⟩, 16, 1, ⟨4096, "map", true⟩, .blank⟩ := rfl
  refine ⟨_, hb, ?_⟩
  rw [((covers_iff (by decide) (by decide) (by decide)).2 _ _ _ hb).2.2]
  decide

end Bitmap
end MarkSweep
