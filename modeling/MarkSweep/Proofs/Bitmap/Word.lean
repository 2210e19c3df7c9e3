import MarkSweep.Bitmap
/-!
# Words of a bitmap — what the masks and the search do bit by bit

A bit of a map is read through a mask.  `testBit_eq` takes the masks away: bit `i` of the map is bit `i % 64` of word
`i / 64`.
-/
namespace MarkSweep
namespace Bitmap

/-- Bit `i` of a word. -/
def wordBit (w : UInt64) (i : Nat) : Bool := w.toBitVec.getLsbD i

theorem wordBit_shiftLeft {n : Nat} (hn : n < mapWordBits) (w : UInt64) (j : Nat) :
    wordBit (w <<< UInt64.ofNat n) j = (decide (j < mapWordBits) && !decide (j < n) && wordBit w (j - n)) := by
  unfold mapWordBits at hn ⊢
  have hamount : ((UInt64.ofNat n).toBitVec % 64).toNat = n := by
    simp only [UInt64.toBitVec_ofNat', BitVec.toNat_umod, BitVec.toNat_ofNat, show (64 : BitVec 64).toNat = 64 from rfl]
    omega
  unfold wordBit
  rw [UInt64.toBitVec_shiftLeft, BitVec.shiftLeft_eq', hamount, BitVec.getLsbD_shiftLeft]

theorem wordBit_one (i : Nat) : wordBit 1 i = decide (i = 0) := by
  simp [wordBit]

@[simp] theorem wordBit_bitMask {i : Nat} (hi : i < mapWordBits) (j : Nat) :
    wordBit (bitMask i) j = decide (i = j) := by
  rw [bitMask, wordBit_shiftLeft hi, wordBit_one, Bool.eq_iff_iff]
  simp only [Bool.and_eq_true, Bool.not_eq_true', decide_eq_true_eq, decide_eq_false_iff_not]
  omega

theorem wordBit_of_le (w : UInt64) {i : Nat} (hi : mapWordBits ≤ i) : wordBit w i = false :=
  BitVec.getLsbD_of_ge _ _ hi

@[simp] theorem wordBit_and (v w : UInt64) (i : Nat) : wordBit (v &&& w) i = (wordBit v i && wordBit w i) := by
  simp [wordBit]

@[simp] theorem wordBit_or (v w : UInt64) (i : Nat) : wordBit (v ||| w) i = (wordBit v i || wordBit w i) := by
  simp [wordBit]

@[simp] theorem wordBit_not {i : Nat} (hi : i < mapWordBits) (w : UInt64) : wordBit (~~~w) i = !wordBit w i := by
  unfold mapWordBits at hi
  simp [wordBit, hi]

@[simp] theorem wordBit_zero (i : Nat) : wordBit 0 i = false := by simp [wordBit]

theorem eq_zero_iff_wordBit {w : UInt64} : w = 0 ↔ ∀ i, i < mapWordBits → wordBit w i = false := by
  refine ⟨fun h i _ => by rw [h, wordBit_zero], ?_⟩
  intro h
  apply UInt64.eq_of_toBitVec_eq
  apply BitVec.eq_of_getLsbD_eq
  intro i hi
  rw [show (0 : UInt64).toBitVec.getLsbD i = false from wordBit_zero i]
  exact h i hi

theorem and_bitMask_ne_zero (w : UInt64) {i : Nat} (hi : i < mapWordBits) : (w &&& bitMask i != 0) = wordBit w i := by
  rw [Bool.eq_iff_iff, bne_iff_ne, Ne, eq_zero_iff_wordBit]
  constructor
  · refine fun h => Classical.byContradiction fun hw => h ?_
    intro j hj
    by_cases hij : i = j
    · subst hij; simp [hw]
    · simp [hi, hij]
  · intro h hz
    have := hz i hi
    simp [hi, h] at this

theorem wordBit_uniformWord {i : Nat} (hi : i < mapWordBits) (set : Bool) : wordBit (uniformWord set) i = set := by
  cases set
  · exact wordBit_zero i
  · exact (wordBit_not hi 0).trans (by simp)

theorem wordBit_bitMask_sub_one {n : Nat} (hn : n < mapWordBits) (j : Nat) :
    wordBit (bitMask n - 1) j = decide (j < n) := by
  unfold mapWordBits at hn
  have hmask : (bitMask n).toBitVec = 1#64 <<< n := by
    apply BitVec.eq_of_getLsbD_eq
    intro i hi
    rw [show (bitMask n).toBitVec.getLsbD i = decide (n = i) from wordBit_bitMask hn i, BitVec.getLsbD_shiftLeft,
      BitVec.getLsbD_one, Bool.eq_iff_iff]
    simp only [Bool.and_eq_true, Bool.not_eq_true', decide_eq_true_eq, decide_eq_false_iff_not]
    omega
  have hnat : (bitMask n - 1).toBitVec.toNat = 2 ^ n - 1 := by
    have hlt : 2 ^ n < 2 ^ 64 := Nat.pow_lt_pow_right (by omega) (by omega)
    have hpos : 0 < 2 ^ n := Nat.two_pow_pos _
    rw [UInt64.toBitVec_sub, hmask, BitVec.toNat_sub]
    simp only [BitVec.toNat_shiftLeft, BitVec.toNat_ofNat, UInt64.toBitVec_one, Nat.shiftLeft_eq]
    omega
  rw [wordBit, ← BitVec.testBit_toNat, hnat, Nat.testBit_two_pow_sub_one]

theorem wordBit_spanMask {lo hi j : Nat} (hlo : lo < hi) (hhi : hi ≤ mapWordBits) :
    wordBit (spanMask lo hi) j = decide (lo ≤ j ∧ j < hi) := by
  have h64 : mapWordBits = 64 := rfl
  by_cases hj : mapWordBits ≤ j
  · rw [wordBit_of_le _ hj]
    exact (decide_eq_false (by omega)).symm
  unfold spanMask
  by_cases hall : hi - lo = mapWordBits
  · rw [if_pos hall, show (~~~0 : UInt64) = uniformWord true from rfl, wordBit_uniformWord (by omega)]
    exact (decide_eq_true (by omega)).symm
  rw [if_neg hall]
  rw [wordBit_shiftLeft (by omega), wordBit_bitMask_sub_one (by omega), Bool.eq_iff_iff]
  simp only [Bool.and_eq_true, Bool.not_eq_true', decide_eq_true_eq, decide_eq_false_iff_not]
  omega

theorem wordBit_full_shiftLeft {lo j : Nat} (hlo : lo < mapWordBits) (hj : j < mapWordBits) :
    wordBit (~~~0 <<< UInt64.ofNat lo) j = decide (lo ≤ j) := by
  rw [wordBit_shiftLeft hlo, show (~~~0 : UInt64) = uniformWord true from rfl, wordBit_uniformWord (by omega),
    Bool.eq_iff_iff]
  simp only [Bool.and_eq_true, Bool.not_eq_true', decide_eq_true_eq, decide_eq_false_iff_not, Bool.and_true]
  omega

theorem lowestBit_spec (w : UInt64) : ∀ (n i : Nat), i + n ≤ mapWordBits →
    i ≤ lowestBit w n i ∧ lowestBit w n i ≤ i + n ∧ (∀ j, i ≤ j → j < lowestBit w n i → wordBit w j = false) ∧
      (lowestBit w n i < i + n → wordBit w (lowestBit w n i) = true)
  | 0, i, _ => by
    refine ⟨Nat.le_refl _, Nat.le_refl _, ?_, ?_⟩
    · intro j hij hj
      simp only [lowestBit] at hj; omega
    · intro h
      simp only [lowestBit] at h; omega
  | n + 1, i, hn => by
    unfold lowestBit
    rw [and_bitMask_ne_zero w (show i < mapWordBits by omega)]
    by_cases hw : wordBit w i = true
    · rw [if_pos hw]
      exact ⟨Nat.le_refl _, by omega, fun j hij hj => by omega, fun _ => hw⟩
    · rw [if_neg hw]
      obtain ⟨h1, h2, h3, h4⟩ := lowestBit_spec w n (i + 1) (by omega)
      refine ⟨by omega, by omega, ?_, fun h => h4 (by omega)⟩
      intro j hij hj
      by_cases hij' : i = j
      · subst hij'; simpa using hw
      · exact h3 j (by omega) hj

/-! ## Bits of the map -/

theorem testBit_eq (b : Bitmap) (i : Nat) :
    b.testBit i = wordBit (mapWord b.words (i / mapWordBits)) (i % mapWordBits) :=
  and_bitMask_ne_zero _ (Nat.mod_lt _ (by decide))

theorem testBit_of_blank {b : Bitmap} (h : b.words = .blank) (i : Nat) : b.testBit i = false := by
  rw [testBit_eq, h, mapWord, Memory.word_blank]
  exact wordBit_zero _

end Bitmap
end MarkSweep
