import MarkSweep.Bitmap
import MarkSweep.Proofs.Run
/-!
# A new bitmap

A bitmap is made over storage that holds a bit for every whole granule of its region (`ofStorage_eq_ok`), and it is
committed with every bit clear.
-/
namespace MarkSweep
namespace Bitmap

variable {r : Region} {storage : BitmapStorage} {storageWords g : Nat} {purpose : String} {available : Nat → Bool} {b b' : Bitmap}

theorem ofStorage_eq_ok (h : ofStorage r storage storageWords g = .ok b) :
    b.covered = r ∧ b.granuleBytes = g ∧ b.words = .blank ∧ wordBytes ≤ g ∧
      r.byteSize / g ≤ b.mapWords * mapWordBits := by
  unfold ofStorage at h
  split at h
  · cases h
  next hgranule =>
  simp only [Bool.not_eq_true', Bool.not_eq_false, Bool.and_eq_true, decide_eq_true_eq] at hgranule
  obtain ⟨words, hwords, h⟩ := except_bind_eq_ok h
  have hle : r.byteSize / g ≤ words * mapWordBits := by
    unfold divCeil at hwords
    rw [if_neg (by decide)] at hwords
    cases hwords
    exact le_roundUp (by decide)
  split at h
  · cases h
  · cases h
    exact ⟨rfl, rfl, rfl, hgranule.2, hle⟩

theorem covering_eq_ok (h : covering r g purpose available = .ok b) :
    b.covered = r ∧ b.granuleBytes = g ∧ b.words = .blank ∧ wordBytes ≤ g ∧
      r.byteSize / g ≤ b.mapWords * mapWordBits := by
  unfold covering at h
  obtain ⟨size, -, h⟩ := except_bind_eq_ok h
  obtain ⟨storage, -, h⟩ := except_bind_eq_ok h
  exact ofStorage_eq_ok (lift_fault_eq_ok h)

theorem covering_uncommitted (h : covering r g purpose available = .ok b) : b.isCommitted = false := by
  unfold covering at h
  obtain ⟨size, -, h⟩ := except_bind_eq_ok h
  obtain ⟨storage, hstorage, h⟩ := except_bind_eq_ok h
  have hfresh : storage.committed = false := by
    unfold BitmapStorage.reserve at hstorage
    obtain ⟨space, -, hstorage⟩ := except_bind_eq_ok hstorage
    cases hstorage
    rfl
  have h := lift_fault_eq_ok h
  unfold ofStorage at h
  split at h
  · cases h
  obtain ⟨words, -, h⟩ := except_bind_eq_ok h
  split at h
  · cases h
  · cases h
    exact hfresh

theorem commit_eq_ok {granted : Bool} (h : b.commit granted = .ok b') :
    b'.covered = b.covered ∧ b'.granuleBytes = b.granuleBytes ∧ b'.words = .blank := by
  unfold commit at h
  split at h
  · cases h; exact ⟨rfl, rfl, rfl⟩
  · cases h

end Bitmap
end MarkSweep
