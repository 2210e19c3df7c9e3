import MarkSweep.Proofs.Bitmap.Creation
import MarkSweep.Proofs.Space.Tiled
/-!
# A new space

A space that is made over whole granules is one free chunk (`Space.create_spec`), or nothing at all where the region is
empty.
-/
namespace MarkSweep

theorem checkedMul_eq_ok {a b c : Nat} (h : checkedMul a b = .ok c) : c = a * b ∧ a * b < addressLimit := by
  unfold checkedMul at h
  split at h
  · next hlt => cases h; exact ⟨rfl, hlt⟩
  · cases h

namespace Space

variable {r : Region} {granuleWords : Nat} {granted : Bool} {available : Nat → Bool} {s : Space}

theorem create_eq_ok_region (h : create r granuleWords granted available = .ok s) :
    s.region = r ∧ s.granuleWords = granuleWords := by
  unfold create at h
  obtain ⟨g, -, h⟩ := except_bind_eq_ok h
  obtain ⟨b, -, h⟩ := except_bind_eq_ok h
  obtain ⟨b', -, h⟩ := except_bind_eq_ok h
  split at h <;> (cases h; exact ⟨rfl, rfl⟩)

/-- The tiles of a new space of `n` granules. -/
def newTiles (n : Nat) : List Tile := if n = 0 then [] else [⟨.free, 0, n⟩]

theorem mem_newTiles {n : Nat} {t : Tile} (ht : t ∈ newTiles n) : t = ⟨.free, 0, n⟩ := by
  unfold newTiles at ht
  split at ht
  · cases ht
  · exact List.mem_singleton.1 ht

theorem freeTiles_newTiles (n : Nat) : freeTiles (newTiles n) = newTiles n :=
  List.filter_eq_self.2 fun t ht => by rw [mem_newTiles ht]; rfl

theorem usedTiles_newTiles (n : Nat) : usedTiles (newTiles n) = [] :=
  List.filter_eq_nil_iff.2 fun t ht => by rw [mem_newTiles ht]; simp [Tile.IsFree]

/-- **A new space is one free chunk.** -/
theorem create_spec (h : create r granuleWords granted available = .ok s) (hlt : r.stop < addressLimit)
    (hdvd : granuleWords * wordBytes ∣ r.start) {n : Nat} (hstop : r.stop = r.start + n * (granuleWords * wordBytes)) :
    s.region = r ∧ s.granuleWords = granuleWords ∧ s.granules = n ∧ s.Tiled (newTiles n) := by
  unfold create at h
  obtain ⟨g, hmul, h⟩ := except_bind_eq_ok h
  obtain ⟨rfl, hglt⟩ := checkedMul_eq_ok (lift_fault_eq_ok hmul)
  obtain ⟨b, hb, h⟩ := except_bind_eq_ok h
  obtain ⟨b', hb', h⟩ := except_bind_eq_ok h
  obtain ⟨hcov, hbytes, -, hword, -⟩ := Bitmap.covering_eq_ok hb
  obtain ⟨hcov', hbytes', hblank⟩ := Bitmap.commit_eq_ok (lift_error_eq_ok hb')
  have hg : 0 < granuleWords := Nat.pos_of_mul_pos_right (Nat.lt_of_lt_of_le (by decide) hword)
  have hwords : r.wordSize = n * granuleWords := by
    rw [Region.wordSize, Region.byteSize, hstop, Nat.add_sub_cancel_left, ← Nat.mul_assoc, Nat.mul_div_cancel _ (by decide)]
  have hgran : r.wordSize / granuleWords = n := by rw [hwords, Nat.mul_div_cancel _ hg]
  have hregular {bits : Bitmap} {list : FreeList} (hc : bits.covered = r)
      (hb : bits.granuleBytes = granuleWords * wordBytes) : Regular ⟨r, granuleWords, bits, list⟩ :=
    ⟨hg, hglt, hdvd, by rw [address, granules, hgran, granuleBytes, hstop], hlt, hc, hb⟩
  rcases Nat.eq_zero_or_pos n with rfl | hn
  · rw [if_pos (by rw [Region.isEmpty, beq_iff_eq, hstop, Nat.zero_mul, Nat.add_zero])] at h
    cases h
    refine ⟨rfl, rfl, hgran, hregular (hcov'.trans hcov) (hbytes'.trans hbytes), ?_, FreeList.represents_empty, ?_, .nil⟩
    · exact hgran.symm
    · intro t ht
      cases ht
  have hbig : 0 < n * (granuleWords * wordBytes) := Nat.mul_pos hn (Nat.mul_pos hg (by decide))
  rw [if_neg (by rw [Region.isEmpty, beq_iff_eq, hstop]; exact Nat.ne_of_lt (Nat.lt_add_of_pos_right hbig))] at h
  cases h
  have hframe := Bitmap.sameFrame_updateBits b' true (b'.bitOf r.start) (b'.bitOf r.stop)
  have hnew : newTiles n = [⟨.free, 0, n⟩] := if_neg (Nat.ne_of_gt hn)
  refine ⟨rfl, rfl, hgran, hregular (hframe.1.trans (hcov'.trans hcov)) (hframe.2.1.trans (hbytes'.trans hbytes)),
    ?_, ?_, ?_, ?_⟩
  · rw [hnew, granules, hgran]
    exact ⟨rfl, hn, Nat.zero_add n⟩
  · have hchunk := FreeList.represents_empty.push ⟨r.start, r.wordSize⟩
    rw [List.nil_append] at hchunk
    rw [freeTiles_newTiles, hnew]
    simpa [chunk, address, hwords] using hchunk
  · intro t ht i hi
    rw [mem_newTiles ht] at hi ⊢
    have hi' : i < n := by simpa [Tile.Covers, Tile.stop] using hi.2
    have hstart : b'.bitOf r.start = 0 := by
      rw [Bitmap.bitOf, hcov', hcov, Nat.sub_self, Nat.zero_div]
    have hend : b'.bitOf r.stop = n := by
      rw [Bitmap.bitOf, hcov', hcov, hbytes', hbytes, hstop, Nat.add_sub_cancel_left,
        Nat.mul_div_cancel _ (Nat.mul_pos hg (by decide))]
    rw [Bitmap.testBit_markRange, hstart, hend, decide_eq_true (by omega), Bool.true_or]
    rfl
  · rw [hnew]
    simp [Separated]

end Space
end MarkSweep
