import MarkSweep.Proofs.Bitmap.Word
/-!
# Updates of a bitmap — exact set operations

Marking and clearing change the bits they name and no other (`testBit_mark`, `testBit_clear`, `testBit_updateBits`), and
nothing but bits.  A range update writes its inner words as a whole, which is the same.
-/
namespace MarkSweep
namespace Bitmap

theorem bit_eq_iff {i j : Nat} : i = j ↔ i / mapWordBits = j / mapWordBits ∧ i % mapWordBits = j % mapWordBits := by
  unfold mapWordBits; omega

theorem testBit_modifyWord (b : Bitmap) (k : Nat) (f : UInt64 → UInt64) (i : Nat) :
    ({ b with words := modifyWord b.words k f } : Bitmap).testBit i =
      if k = i / mapWordBits then wordBit (f (mapWord b.words k)) (i % mapWordBits) else b.testBit i := by
  rw [testBit_eq, testBit_eq, mapWord_modifyWord]
  split <;> rfl

/-- **Marking sets the bit of the address** and no other. -/
theorem testBit_mark (b : Bitmap) (a : Address) (i : Nat) :
    (b.mark a).testBit i = (decide (b.bitOf a = i) || b.testBit i) := by
  have hlt : b.bitOf a % mapWordBits < mapWordBits := Nat.mod_lt _ (by decide)
  unfold mark
  rw [testBit_modifyWord]
  by_cases hk : b.bitOf a / mapWordBits = i / mapWordBits
  · rw [if_pos hk, wordBit_or, wordBit_bitMask hlt, testBit_eq, hk, Bool.or_comm]
    have : (b.bitOf a % mapWordBits = i % mapWordBits) ↔ b.bitOf a = i := by rw [bit_eq_iff (i := b.bitOf a)]; simp [hk]
    simp only [this]
  · rw [if_neg hk]
    have : b.bitOf a ≠ i := fun h => hk (by rw [h])
    simp [this]

/-- **Clearing clears the bit of the address** and no other. -/
theorem testBit_clear (b : Bitmap) (a : Address) (i : Nat) :
    (b.clear a).testBit i = (!decide (b.bitOf a = i) && b.testBit i) := by
  have hlt : b.bitOf a % mapWordBits < mapWordBits := Nat.mod_lt _ (by decide)
  have hi : i % mapWordBits < mapWordBits := Nat.mod_lt _ (by decide)
  unfold clear
  rw [testBit_modifyWord]
  by_cases hk : b.bitOf a / mapWordBits = i / mapWordBits
  · rw [if_pos hk, wordBit_and, wordBit_not hi, wordBit_bitMask hlt, testBit_eq, hk, Bool.and_comm]
    have : (b.bitOf a % mapWordBits = i % mapWordBits) ↔ b.bitOf a = i := by rw [bit_eq_iff (i := b.bitOf a)]; simp [hk]
    simp only [this]
  · rw [if_neg hk]
    have : b.bitOf a ≠ i := fun h => hk (by rw [h])
    simp [this]

theorem wordBit_updateWord (set : Bool) {lo hi index j : Nat} (w : UInt64) (hlo : lo < hi)
    (hfirst : lo / mapWordBits ≤ index) (hlast : index ≤ (hi - 1) / mapWordBits) (hj : j < mapWordBits) :
    wordBit (updateWord set lo hi index w) j =
      if lo ≤ index * mapWordBits + j ∧ index * mapWordBits + j < hi then set else wordBit w j := by
  unfold updateWord
  simp only
  generalize hf : (if index = lo / mapWordBits then lo % mapWordBits else 0) = first
  generalize hl : (if index = (hi - 1) / mapWordBits then (hi - 1) % mapWordBits + 1 else mapWordBits) = last
  have hspan : first < last ∧ last ≤ mapWordBits := by
    unfold mapWordBits at *
    split at hf <;> split at hl <;> omega
  have hin : (first ≤ j ∧ j < last) ↔ (lo ≤ index * mapWordBits + j ∧ index * mapWordBits + j < hi) := by
    unfold mapWordBits at *
    split at hf <;> split at hl <;> omega
  have hmask := wordBit_spanMask (j := j) hspan.1 hspan.2
  by_cases h : lo ≤ index * mapWordBits + j ∧ index * mapWordBits + j < hi
  · rw [if_pos h]
    cases set <;> simp [hj, hmask, hin, h]
  · rw [if_neg h]
    cases set
    · simp only [if_neg Bool.false_ne_true, wordBit_and, wordBit_not hj, hmask, hin, decide_eq_false h]; simp
    · simp only [if_true, wordBit_or, hmask, hin, decide_eq_false h]; simp

/-- **A range update sets or clears the bits of the range** and no other. -/
theorem testBit_updateBits (b : Bitmap) (set : Bool) (lo hi i : Nat) :
    (b.updateBits set lo hi).testBit i = if lo ≤ i ∧ i < hi then set else b.testBit i := by
  unfold updateBits
  by_cases hle : hi ≤ lo
  · rw [if_pos hle, if_neg (by omega)]
  rw [if_neg hle]
  simp only
  have hj : i % mapWordBits < mapWordBits := Nat.mod_lt _ (by decide)
  have hi64 : i / mapWordBits * mapWordBits + i % mapWordBits = i := by unfold mapWordBits; omega
  by_cases hsame : lo / mapWordBits = (hi - 1) / mapWordBits
  · rw [if_pos hsame, testBit_modifyWord]
    by_cases hk : lo / mapWordBits = i / mapWordBits
    · rw [if_pos hk, hk, wordBit_updateWord set _ (by omega) (by omega) (by omega) hj, hi64, testBit_eq]
    · rw [if_neg hk, if_neg (by unfold mapWordBits at *; omega)]
  · rw [if_neg hsame]
    have hfl : lo / mapWordBits < (hi - 1) / mapWordBits := by unfold mapWordBits at *; omega
    simp only [testBit_eq, mapWord_modifyWord, mapWord_fillWords]
    by_cases hlast : (hi - 1) / mapWordBits = i / mapWordBits
    · rw [if_pos hlast, hlast, if_neg (by omega), if_neg (by omega),
        wordBit_updateWord set _ (by omega) (by omega) (by omega) hj, hi64]
    · rw [if_neg hlast]
      by_cases hmid : lo / mapWordBits + 1 ≤ i / mapWordBits ∧
          i / mapWordBits < lo / mapWordBits + 1 + ((hi - 1) / mapWordBits - lo / mapWordBits - 1)
      · rw [if_pos hmid, wordBit_uniformWord hj, if_pos (by unfold mapWordBits at *; omega)]
      · rw [if_neg hmid]
        by_cases hfirst : lo / mapWordBits = i / mapWordBits
        · rw [if_pos hfirst, hfirst, wordBit_updateWord set _ (by omega) (by omega) (by omega) hj, hi64]
        · rw [if_neg hfirst, if_neg (by unfold mapWordBits at *; omega)]

theorem testBit_markRange (b : Bitmap) (start stop : Address) (i : Nat) :
    (b.markRange start stop).testBit i = (decide (b.bitOf start ≤ i ∧ i < b.bitOf stop) || b.testBit i) := by
  rw [markRange, testBit_updateBits]
  by_cases h : b.bitOf start ≤ i ∧ i < b.bitOf stop <;> simp [h]

theorem testBit_clearRange (b : Bitmap) (start stop : Address) (i : Nat) :
    (b.clearRange start stop).testBit i = (!decide (b.bitOf start ≤ i ∧ i < b.bitOf stop) && b.testBit i) := by
  rw [clearRange, testBit_updateBits]
  by_cases h : b.bitOf start ≤ i ∧ i < b.bitOf stop <;> simp [h]

/-- What the bitmap covers, and where its words are kept, is no matter of its bits. -/
def SameFrame (b c : Bitmap) : Prop :=
  c.covered = b.covered ∧ c.granuleBytes = b.granuleBytes ∧ c.mapWords = b.mapWords ∧ c.storage = b.storage

theorem SameFrame.bitOf {b c : Bitmap} (h : b.SameFrame c) (a : Address) : c.bitOf a = b.bitOf a := by
  rw [Bitmap.bitOf, Bitmap.bitOf, h.1, h.2.1]

theorem SameFrame.trans {b c d : Bitmap} (h : b.SameFrame c) (h' : c.SameFrame d) : b.SameFrame d :=
  ⟨h'.1.trans h.1, h'.2.1.trans h.2.1, h'.2.2.1.trans h.2.2.1, h'.2.2.2.trans h.2.2.2⟩

theorem sameFrame_mark (b : Bitmap) (a : Address) : b.SameFrame (b.mark a) := ⟨rfl, rfl, rfl, rfl⟩

theorem sameFrame_updateBits (b : Bitmap) (set : Bool) (lo hi : Nat) : b.SameFrame (b.updateBits set lo hi) := by
  unfold updateBits
  split
  · exact ⟨rfl, rfl, rfl, rfl⟩
  · simp only
    split <;> exact ⟨rfl, rfl, rfl, rfl⟩

end Bitmap
end MarkSweep
