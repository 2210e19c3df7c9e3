import MarkSweep.Proofs.Heap.Creation
import MarkSweep.Proofs.Object.NarrowCodec
/-!
# Narrow references number the granules

The encoding of a heap starts one granule below the region, so that the granule with number `k` has the narrow reference
`k + 1`, as far as 32 bits reach.  They reach over every granule but one: settings are checked before their heap size is
rounded up to pages, and a heap that is rounded up to `2 ^ 32` granules has no narrow reference for the last of them.
-/
namespace MarkSweep

/-- The address has a narrow reference, which is not null and stands for it alone. -/
def NarrowEncoding.Names (e : NarrowEncoding) (a : Address) : Prop :=
  ∃ n, e.encode a = .ok n ∧ n ≠ 0 ∧ e.decode n = .ok a

namespace Heap

variable {h : Heap} {k : Nat}

theorem Framed.encoding_spec (hf : h.Framed) (hs : h.space.Regular) :
    h.encoding.shift < 64 ∧ h.encoding.base + h.space.granuleBytes = h.space.region.start ∧
      h.space.granuleBytes = 2 ^ h.encoding.shift := by
  have hle : h.space.granuleBytes ≤ h.space.region.start := Nat.le_of_dvd hf.start_pos hs.start_dvd
  have hlt : h.space.granuleBytes < addressLimit := by
    have hstop : h.space.region.start ≤ h.space.region.stop := hs.stop_eq ▸ h.space.start_le_address _
    exact Nat.lt_of_le_of_lt hle (Nat.lt_of_le_of_lt hstop hs.stop_lt)
  rw [hf.encoding]
  refine ⟨?_, Nat.sub_add_cancel hle, hf.granule_pow⟩
  rw [hf.granule_pow] at hlt
  exact (Nat.pow_lt_pow_iff_right (m := 64) (by decide)).1 hlt

/-- A granule lies one step further from the base than from the start of the region. -/
theorem encoding_address_succ (hf : h.Framed) (hs : h.space.Regular) (k : Nat) :
    h.encoding.address (k + 1) = h.space.address k := by
  obtain ⟨-, hbase, hpow⟩ := hf.encoding_spec hs
  rw [Space.address, ← hbase, NarrowEncoding.address, ← hpow, Nat.succ_mul, Nat.add_comm (k * _), Nat.add_assoc]

/-- **The narrow reference of a granule**, as far as there is one. -/
theorem encode_address (hf : h.Framed) (hs : h.space.Regular) (k : Nat) : h.encoding.encode (h.space.address k) =
    if k + 1 < narrowLimit then .ok (k + 1) else .error (.notEncodable (h.space.address k)) := by
  obtain ⟨hshift, -, -⟩ := hf.encoding_spec hs
  have hne : h.space.address k ≠ 0 := Nat.ne_of_gt (Space.address_pos hf.start_pos k)
  have habove : h.encoding.base < h.encoding.address (k + 1) := NarrowEncoding.lt_address (Nat.succ_ne_zero k)
  rw [← encoding_address_succ hf hs] at hne ⊢
  rw [NarrowEncoding.encode_eq hshift hne, NarrowEncoding.steps_address]
  simp only [habove, true_and]

/-- **The granule of a narrow reference.** -/
theorem decode_succ (hf : h.Framed) (hs : h.space.Regular) (hk : k ≤ h.space.granules) :
    h.encoding.decode (k + 1) = .ok (h.space.address k) := by
  obtain ⟨hshift, -, -⟩ := hf.encoding_spec hs
  have hlt := hs.address_lt_limit hk
  rw [← encoding_address_succ hf hs] at hlt ⊢
  exact NarrowEncoding.decode_of_lt hshift (Nat.succ_ne_zero k) hlt

/-! ## Which granules have a narrow reference -/

/-- **A granule has a narrow reference if 32 bits hold its number.** -/
theorem names_address_iff (hf : h.Framed) (hs : h.space.Regular) (hk : k < h.space.granules) :
    h.encoding.Names (h.space.address k) ↔ k + 1 < narrowLimit := by
  unfold NarrowEncoding.Names
  rw [encode_address hf hs]
  constructor
  · rintro ⟨n, hn, -⟩
    by_contra hge
    rw [if_neg hge] at hn
    cases hn
  · intro hlt
    exact ⟨k + 1, if_pos hlt, Nat.succ_ne_zero k, decode_succ hf hs (Nat.le_of_lt hk)⟩

theorem exists_granule_of_aligned (hs : h.space.Regular) {a : Address} (h1 : h.low ≤ a) (h2 : a < h.high)
    (hd : h.space.granuleBytes ∣ a) : ∃ k, k < h.space.granules ∧ a = h.space.address k := by
  have hstart : h.space.region.start ≤ a := h1
  obtain ⟨k, hk⟩ := (Nat.dvd_sub_iff_left hstart hs.start_dvd).2 hd
  have ha : a = h.space.address k := by
    rw [Space.address, Nat.mul_comm, ← hk, Nat.add_sub_cancel' hstart]
  refine ⟨k, hs.address_lt.1 ?_, ha⟩
  rw [← ha, ← hs.stop_eq]
  exact h2

theorem names_all_iff (hf : h.Framed) (hs : h.space.Regular) :
    (∀ a, h.low ≤ a → a < h.high → h.space.granuleBytes ∣ a → h.encoding.Names a) ↔ h.space.granules < narrowLimit := by
  constructor
  · intro hall
    have hpos := hf.nonempty
    have hlast : h.space.granules - 1 < h.space.granules := Nat.sub_lt hpos Nat.one_pos
    have hname := hall (h.space.address (h.space.granules - 1)) (h.space.start_le_address _)
      (Nat.lt_of_lt_of_eq (hs.address_lt.2 hlast) hs.stop_eq.symm) (hs.granuleBytes_dvd_address _)
    rw [names_address_iff hf hs hlast] at hname
    omega
  · intro hlt a h1 h2 hd
    obtain ⟨k, hk, rfl⟩ := exists_granule_of_aligned hs h1 h2 hd
    exact (names_address_iff hf hs hk).2 (by omega)

namespace New

variable {settings : Settings} {base : Address}

theorem granules_eq (hnew : New settings base h) : h.space.granules * (settings.granuleWords * wordBytes) =
    (settings.maxHeapSize + (pageBytes - 1)) / pageBytes * pageBytes := by
  rw [← hnew.max_size, ← hnew.granules, Space.granuleBytes, hnew.granule_words]

/-- The check of the settings leaves at most one granule too many. -/
theorem granules_le (hnew : New settings base h) : h.space.granules ≤ narrowLimit := by
  have hg : 0 < settings.granuleWords * wordBytes := Nat.mul_pos hnew.acceptable.granule_pos (by decide)
  have hmax := Nat.lt_mul_of_div_lt hnew.acceptable.max_lt hg
  refine Nat.le_of_mul_le_mul_right (c := settings.granuleWords * wordBytes) ?_ hg
  rw [hnew.granules_eq]
  unfold narrowLimit pageBytes at *
  omega

/-- The heap has fewer granules than narrow references unless rounding up to pages adds the last one. -/
theorem granules_lt_iff (hnew : New settings base h) : h.space.granules < narrowLimit ↔
    settings.maxHeapSize + pageBytes ≤ narrowLimit * (settings.granuleWords * wordBytes) := by
  have hg : 0 < settings.granuleWords * wordBytes := Nat.mul_pos hnew.acceptable.granule_pos (by decide)
  rw [← Nat.mul_lt_mul_right hg, hnew.granules_eq]
  unfold narrowLimit pageBytes
  omega

end New

/-- **Which heaps narrow references cover**: every granule but the last one always has one, and the last one has one
exactly if the heap size of the settings lies a page below `2 ^ 32` granules. -/
theorem create_names_iff {settings : Settings} {base : Address} {granted hook : Bool} {available : Nat → Bool}
    (hrun : create settings base granted hook available = .ok h) (hbase : pageBytes ∣ base) (hpos : base ≠ 0)
    (hhigh : h.high < addressLimit) :
    (∀ a, h.low ≤ a → a + h.space.granuleBytes < h.high → h.space.granuleBytes ∣ a → h.encoding.Names a) ∧
    ((∀ a, h.low ≤ a → a < h.high → h.space.granuleBytes ∣ a → h.encoding.Names a) ↔
      settings.maxHeapSize + pageBytes ≤ narrowLimit * (settings.granuleWords * wordBytes)) := by
  have hnew := create_spec hrun hbase hpos hhigh
  have hs := hnew.tiled.toRegular
  refine ⟨?_, (names_all_iff hnew.framed hs).trans hnew.granules_lt_iff⟩
  intro a h1 h2 hd
  obtain ⟨k, hk, rfl⟩ := exists_granule_of_aligned hs h1 (Nat.lt_of_le_of_lt (Nat.le_add_right _ _) h2) hd
  rw [names_address_iff hnew.framed hs hk]
  have hnext : h.space.address (k + 1) < h.space.address h.space.granules := by
    rw [← hs.stop_eq, h.space.address_add, Nat.one_mul]
    exact h2
  exact Nat.lt_of_lt_of_le (hs.address_lt.1 hnext) hnew.granules_le

/-- Settings that are accepted and make a heap of `2 ^ 32` granules. -/
def oneTooMany : Settings :=
  { initialHeapSize := 0, maxHeapSize := 34359738359, minTlabSize := 1024, maxTlabSize := 1024, tlabSize := 1024,
    granuleWords := 1 }

/-- A heap whose last granule has no narrow reference. -/
theorem exists_unnamed : ∃ h, create oneTooMany 4096 true false = .ok h ∧
    ¬∀ a, h.low ≤ a → a < h.high → h.space.granuleBytes ∣ a → h.encoding.Names a := by
  have hrun : (match create oneTooMany 4096 true false with
      | .ok h => decide (h.high < addressLimit)
      | .error _ => false) = true := by decide +kernel
  split at hrun
  · next h hcreate =>
    refine ⟨h, hcreate, ?_⟩
    rw [(create_names_iff hcreate (by decide) (by decide) (of_decide_eq_true hrun)).2]
    decide
  · cases hrun

end Heap
end MarkSweep
