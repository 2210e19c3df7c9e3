import MarkSweep.Proofs.Bitmap.Storage
import MarkSweep.Proofs.Heap.Creation
/-!
# Sizes are answered

Whatever its sizes are, and whatever the system has address space for, a heap is made or refused: the checks of the
settings bound every size that is computed with later (`create_faults_iff`).  The checks themselves fault in one place: they compute the bytes of the granule before they ask
whether it exceeds a page, and a granule of `2 ^ 61` words or more has no 64-bit number of bytes.
-/
namespace MarkSweep

theorem checkedMul_of_le {a b : Nat} (h : addressLimit ≤ a * b) : checkedMul a b = .error .overflow := by
  rw [checkedMul, if_neg (Nat.not_lt_of_le h)]

namespace Settings

variable {s : Settings}

/-- Every size is a 64-bit number. -/
def Sized (s : Settings) : Prop := ∀ p ∈ s.sizes, p.2 < addressLimit

instance : Decidable s.Sized := inferInstanceAs (Decidable (∀ p ∈ s.sizes, p.2 < addressLimit))

/-- The checks come to a granule whose bytes are no 64-bit number. -/
structure GranuleOverflows (s : Settings) : Prop where
  max_ne : s.maxHeapSize ≠ 0
  min_tlab_ne : s.minTlabSize ≠ 0
  tlab_ne : s.tlabSize ≠ 0
  pow : isPowerOfTwo s.granuleWords = true
  bytes : addressLimit ≤ s.granuleWords * wordBytes

theorem Sized.max_tlab (h : s.Sized) : s.maxTlabSize < addressLimit := h ("max_tlab_size", s.maxTlabSize) (by simp [sizes])

theorem Sized.min_tlab (h : s.Sized) : s.minTlabSize < addressLimit := h ("min_tlab_size", s.minTlabSize) (by simp [sizes])

theorem isPowerOfTwo_of_eq_pow {n : Nat} (h : n = 2 ^ n.log2) : isPowerOfTwo n = true := by
  have hne : n ≠ 0 := fun h0 => by rw [h0] at h; exact absurd h (by decide)
  unfold isPowerOfTwo
  rw [Bool.and_eq_true, bne_iff_ne, beq_iff_eq, Nat.shiftLeft_eq, Nat.one_mul]
  exact ⟨hne, h⟩

/-- **The checks fault where the granule overflows**, and nowhere else. -/
theorem problem?_eq_error_iff {f : Fault} : s.problem? = .error f ↔ f = .overflow ∧ s.GranuleOverflows := by
  unfold problem? granuleBytes checkedMul
  constructor
  · intro h
    split at h
    · cases h
    next hzero =>
    split at h
    · cases h
    next hpow =>
    by_cases hlt : s.granuleWords * wordBytes < addressLimit
    · -- the bytes are known, and every check behind them has an answer
      rw [if_pos hlt] at h
      simp only [bind, Except.bind, pure, Except.pure] at h
      split at h
      · cases h
      split at h
      · cases h
      split at h
      · cases h
      split at h <;> cases h
    · rw [if_neg hlt] at h
      cases h
      simp only [not_or] at hzero
      exact ⟨rfl, hzero.1, hzero.2.1, hzero.2.2, by simpa using hpow, Nat.le_of_not_lt hlt⟩
  · rintro ⟨rfl, h1, h2, h3, hpow, hbytes⟩
    rw [if_neg (by simp [h1, h2, h3]), if_neg (by simp [hpow]), if_neg (Nat.not_lt_of_le hbytes)]
    rfl

theorem validate_of_problem {p : SettingsProblem} (h : s.problem? = .ok (some p)) : s.validate = .error (.error p.toError) := by
  unfold validate
  rw [except_bind_of_ok (lift_fault_of_ok h)]
  rfl

theorem validate_of_none (h : s.problem? = .ok none) : s.validate = .ok () := by
  unfold validate
  rw [except_bind_of_ok (lift_fault_of_ok h)]
  rfl

theorem validate_of_error {f : Fault} (h : s.problem? = .error f) : s.validate = .error (.fault f) := by
  unfold validate
  rw [except_bind_of_error (lift_fault_of_error h)]

/-- No heap has more bytes. -/
def largestHeap : Nat := 0x100000000000

namespace Acceptable

theorem max_le (h : s.Acceptable) : s.maxHeapSize ≤ largestHeap := by
  have hg : 0 < s.granuleWords * wordBytes := Nat.mul_pos h.granule_pos (by decide)
  calc s.maxHeapSize ≤ (narrowLimit - 1) * (s.granuleWords * wordBytes) := Nat.le_of_lt (Nat.lt_mul_of_div_lt h.max_lt hg)
    _ ≤ (narrowLimit - 1) * pageBytes := Nat.mul_le_mul_left _ h.granule_le
    _ ≤ largestHeap := by decide

theorem initial_le (h : s.problem? = .ok none) : s.initialHeapSize ≤ s.maxHeapSize := by
  unfold problem? at h
  split at h
  · cases h
  split at h
  · cases h
  obtain ⟨g, -, h⟩ := except_bind_eq_ok h
  split at h
  · cases h
  split at h
  · cases h
  next hle => exact Nat.le_of_not_lt hle

/-- Acceptable sizes can be rounded up to pages. -/
theorem resolve_eq (h : s.Acceptable) (hinit : s.initialHeapSize ≤ s.maxHeapSize) :
    ∃ s', s.resolve = .ok s' ∧ s'.maxHeapSize ≤ largestHeap ∧ 0 < s'.maxHeapSize := by
  have hmax := h.max_le
  have halign {v : Nat} (hv : v ≤ largestHeap) :
      alignUp v pageBytes = .ok ((v + (pageBytes - 1)) / pageBytes * pageBytes) := by
    refine alignUp_eq_ok_iff.2 ⟨by decide, ?_, rfl⟩
    unfold largestHeap pageBytes addressLimit at *
    omega
  obtain ⟨s', hs', hsize⟩ : ∃ s', s.resolve = .ok s' ∧
      s'.maxHeapSize = (s.maxHeapSize + (pageBytes - 1)) / pageBytes * pageBytes := by
    unfold resolve
    rw [except_bind_of_ok (halign (Nat.le_trans hinit hmax)), except_bind_of_ok (halign hmax)]
    exact ⟨_, rfl, rfl⟩
  refine ⟨s', hs', ?_, ?_⟩ <;> rw [hsize]
  · unfold largestHeap pageBytes at *
    omega
  · have hpos := Nat.lt_of_lt_of_le (Nat.mul_pos h.granule_pos (by decide)) h.granule_le_max
    exact Nat.lt_of_lt_of_le hpos (le_roundUp (by decide))

end Acceptable

end Settings

/-! ## Systems -/

/-- `x` comes to what `y` comes to, or the system refuses it. -/
def OrRefused {α : Type} (x y : Except Failure α) : Prop := x = y ∨ ∃ e, x = .error (.error e)

namespace OrRefused

variable {α β : Type} {x y : Except Failure α} {f g : α → Except Failure β}

theorem refl (x : Except Failure α) : OrRefused x x := .inl rfl

theorem bind (hx : OrRefused x y) (hf : ∀ a, OrRefused (f a) (g a)) : OrRefused (x >>= f) (y >>= g) := by
  rcases hx with rfl | ⟨e, rfl⟩
  · cases x with
    | ok a => exact hf a
    | error e => exact .inl rfl
  · exact .inr ⟨e, rfl⟩

theorem fault {e : Fault} (hx : OrRefused x y) (he : x = .error (.fault e)) : y = .error (.fault e) := by
  rcases hx with rfl | ⟨e', rfl⟩
  · exact he
  · cases he

end OrRefused

section Systems

variable (available : Nat → Bool)

theorem Reservation.reserve_orRefused (base : Address) (bytes : Nat) :
    OrRefused (reserve base bytes available) (reserve base bytes fun _ => true) := by
  refine .bind (.refl _) fun size => ?_
  dsimp only
  cases available size with
  | true => exact .refl _
  | false => exact .inr ⟨_, rfl⟩

theorem Bitmap.covering_orRefused (r : Region) (g : Nat) (purpose : String) :
    OrRefused (covering r g purpose available) (covering r g purpose fun _ => true) :=
  .bind (.refl _) fun _ => .bind (.bind (Reservation.reserve_orRefused available _ _) fun _ => .refl _) fun _ => .refl _

theorem Space.create_orRefused (r : Region) (granuleWords : Nat) (granted : Bool) :
    OrRefused (create r granuleWords granted available) (create r granuleWords granted fun _ => true) :=
  .bind (.refl _) fun _ => .bind (Bitmap.covering_orRefused available _ _ _) fun _ => .refl _

/-- **A system that refuses sizes makes a heap as one that refuses none**, or refuses it. -/
theorem Heap.create_orRefused (settings : Settings) (base : Address) (granted hook : Bool) :
    OrRefused (create settings base granted hook available) (create settings base granted hook fun _ => true) :=
  .bind (.refl _) fun _ => .bind (.refl _) fun _ => .bind (.refl _) fun _ =>
    .bind (Reservation.reserve_orRefused available _ _) fun _ => .bind (.refl _) fun _ =>
    .bind (Bitmap.covering_orRefused available _ _ _) fun _ => .bind (Space.create_orRefused available _ _ _) fun _ => .refl _

end Systems

/-! ## Parts -/

section Parts

variable {available : Nat → Bool} (hall : ∀ bytes < reservationLimit, available bytes = true)
include hall

theorem Reservation.reserve_eq (base : Address) {bytes : Nat} (h : bytes ≤ Settings.largestHeap + 2 * pageBytes) :
    ∃ r, reserve base bytes available = .ok r ∧ r.size = (max bytes 1 + (pageBytes - 1)) / pageBytes * pageBytes := by
  have hsum : max bytes 1 + (pageBytes - 1) < addressLimit := by
    unfold Settings.largestHeap pageBytes addressLimit at *
    omega
  have hsize : Reservation.wholePages bytes < reservationLimit := by
    unfold Reservation.wholePages Settings.largestHeap pageBytes reservationLimit at *
    omega
  exact ⟨_, (Reservation.reserve_of_lt hsum).trans (if_pos (hall _ hsize)), rfl⟩

omit hall in
theorem CommittedSpace.create_eq {r : Reservation} {bytes : Nat} (hpos : 0 < bytes) (hle : bytes ≤ r.size)
    (hlt : bytes < addressLimit) (granted : Bool) : CommittedSpace.create r granted bytes =
      if granted then .ok ⟨r.back 0 bytes, bytes⟩ else .error (.error (.commit "heap" bytes)) := by
  unfold CommittedSpace.create
  rw [CommittedSpace.expandBy_of_lt (Nat.ne_of_gt hpos) (by simpa using hlt), Nat.zero_add,
    if_neg (Nat.not_lt_of_le hle)]
  cases granted <;> rfl

namespace Bitmap

/-- A bitmap of at most a whole heap can be made. -/
theorem covering_eq {r : Region} {g : Nat} (hg : isPowerOfTwo g = true) (hword : wordBytes ≤ g)
    (hr : r.byteSize ≤ Settings.largestHeap) (purpose : String) : ∃ b, covering r g purpose available = .ok b := by
  have hlt : r.byteSize < addressLimit := Nat.lt_of_le_of_lt hr (by decide)
  obtain ⟨bytes, hbytes, hle, hstorage⟩ := computeSize_spec hg hword hlt
  obtain ⟨space, hspace, hsize⟩ := Reservation.reserve_eq hall .null
    (Nat.le_trans hle (Nat.add_le_add_right hr _))
  obtain ⟨storage, hreserve, hwords⟩ : ∃ storage, BitmapStorage.reserve bytes purpose available = .ok storage ∧
      bytes / wordBytes ≤ storage.wordSize := by
    unfold BitmapStorage.reserve
    rw [except_bind_of_ok hspace]
    refine ⟨_, rfl, Nat.div_le_div_right ?_⟩
    rw [hsize]
    exact Nat.le_trans (Nat.le_max_left _ _) (le_roundUp (by decide))
  obtain ⟨b, hb, -⟩ := hstorage storage
  have hmap := mapWords_of_ofStorage hb
  unfold covering
  rw [except_bind_of_ok (lift_fault_of_ok hbytes), except_bind_of_ok hreserve,
    ofStorage_of_le hg hword (Nat.le_trans (hmap.1 ▸ hmap.2) hwords)]
  exact ⟨_, rfl⟩

end Bitmap

theorem Space.create_eq {r : Region} {granuleWords : Nat} (hg : isPowerOfTwo (granuleWords * wordBytes) = true)
    (hword : wordBytes ≤ granuleWords * wordBytes) (hpage : granuleWords * wordBytes ≤ pageBytes)
    (hr : r.byteSize ≤ Settings.largestHeap) : ∃ s, Space.create r granuleWords true available = .ok s := by
  obtain ⟨b, hb⟩ := Bitmap.covering_eq hall hg hword hr "free chunk bitmap"
  have hmul := checkedMul_of_lt (Nat.lt_of_le_of_lt hpage (by decide))
  unfold Space.create
  rw [except_bind_of_ok (lift_fault_of_ok hmul), except_bind_of_ok hb]
  simp only [Bitmap.commit, if_true]
  split
  · exact ⟨_, rfl⟩
  · exact ⟨_, rfl⟩

end Parts

/-! ## The heap -/

namespace Heap

variable {settings : Settings} {base : Address} {available : Nat → Bool}

/-- Settings without a problem make a heap, unless the system refuses its memory. -/
theorem create_of_none (hall : ∀ bytes < reservationLimit, available bytes = true) (hs : settings.Sized)
    (hnone : settings.problem? = .ok none) (hbase : pageBytes ∣ base) (hpos : base ≠ 0) (granted hook : Bool) :
    if granted then ∃ h, create settings base granted hook available = .ok h
    else ∃ bytes, create settings base granted hook available = .error (.error (.commit "heap" bytes)) := by
  have hacc := Settings.problem?_eq_none hnone
  obtain ⟨s', hresolve, hle, hmaxpos⟩ := hacc.resolve_eq (Settings.Acceptable.initial_le hnone)
  obtain ⟨hgranule, -, -, htlab⟩ := Settings.resolve_eq_ok hresolve
  have hpage : s'.granuleWords * wordBytes ≤ pageBytes := hgranule ▸ hacc.granule_le
  have hbytes : s'.granuleBytes = .ok (s'.granuleWords * wordBytes) :=
    checkedMul_of_lt (Nat.lt_of_le_of_lt hpage (by decide))
  obtain ⟨r, hr, hsize⟩ := Reservation.reserve_eq hall base (Nat.le_trans hle (Nat.le_add_right _ _))
  have hfits : s'.maxHeapSize ≤ r.size := by
    rw [hsize]
    exact Nat.le_trans (Nat.le_max_left _ _) (le_roundUp (by decide))
  have hspace := CommittedSpace.create_eq hmaxpos hfits (Nat.lt_of_le_of_lt hle (by decide)) granted
  unfold create
  rw [except_bind_of_ok (Settings.validate_of_none hnone)]
  simp only
  rw [except_bind_of_ok (lift_fault_of_ok hresolve), except_bind_of_ok (lift_fault_of_ok hbytes), except_bind_of_ok hr]
  cases granted with
  | false =>
    rw [if_neg Bool.false_ne_true] at hspace ⊢
    exact ⟨_, except_bind_of_error hspace _⟩
  | true =>
    rw [if_pos rfl] at hspace ⊢
    have hregion := CommittedSpace.create_eq_ok hspace
    rw [congrArg Reservation.base (Reservation.reserve_eq_ok hr).2] at hregion
    have hpow : isPowerOfTwo (s'.granuleWords * wordBytes) = true :=
      hgranule ▸ Settings.isPowerOfTwo_of_eq_pow hacc.bytes_pow
    have hword : wordBytes ≤ s'.granuleWords * wordBytes := Nat.le_mul_of_pos_left _ (hgranule ▸ hacc.granule_pos)
    have hcovered : (⟨base, base + s'.maxHeapSize⟩ : Region).byteSize ≤ Settings.largestHeap := by
      rw [Region.byteSize, Nat.add_sub_cancel_left]
      exact hle
    obtain ⟨live, hlive⟩ := Bitmap.covering_eq hall hpow hword hcovered "marking bitmap"
    obtain ⟨space, hmade⟩ := Space.create_eq hall hpow hword hpage hcovered
    -- the buffers have no bound but that of a 64-bit number
    have htlabs : s'.maxTlabSize / wordBytes + (s'.granuleWords - 1) < addressLimit := by
      have hsizes : s'.maxTlabSize < addressLimit := by
        rw [htlab]
        exact max_lt (hs.max_tlab) (hs.min_tlab)
      unfold wordBytes pageBytes addressLimit at *
      omega
    have hlow : checkedSub base (s'.granuleWords * wordBytes) = .ok (base - s'.granuleWords * wordBytes) := by
      rw [checkedSub, if_pos (Nat.le_trans hpage (Nat.le_of_dvd (Nat.pos_of_ne_zero hpos) hbase))]
    rw [except_bind_of_ok hspace]
    simp only [hregion]
    rw [except_bind_of_ok hlive, except_bind_of_ok hmade,
      except_bind_of_ok (lift_fault_of_ok (alignUp_eq_ok_iff.2 ⟨hgranule ▸ hacc.granule_pos, htlabs, rfl⟩)),
      except_bind_of_ok (lift_fault_of_ok hlow)]
    exact ⟨_, rfl⟩

theorem create_of_fault {f : Fault} (hf : settings.problem? = .error f) (granted hook : Bool) :
    create settings base granted hook available = .error (.fault f) := by
  unfold create
  rw [except_bind_of_error (Settings.validate_of_error hf)]

/-- What the checks refuse is refused whatever the system would grant. -/
theorem create_of_problem {p : SettingsProblem} (hp : settings.problem? = .ok (some p)) {granted hook : Bool} :
    create settings base granted hook available = .error (.error p.toError) := by
  unfold create
  rw [except_bind_of_error (Settings.validate_of_problem hp)]

/-- **A heap is made or refused unless its granule overflows**, whatever the system has available. -/
theorem create_faults_iff (hs : settings.Sized) (hbase : pageBytes ∣ base) (hpos : base ≠ 0) {granted hook : Bool} :
    (∃ f, create settings base granted hook available = .error (.fault f)) ↔ settings.GranuleOverflows := by
  constructor
  · rintro ⟨f, hf⟩
    replace hf := (create_orRefused available settings base granted hook).fault hf
    cases hproblem : settings.problem? with
    | error f' => exact (Settings.problem?_eq_error_iff.1 hproblem).2
    | ok found =>
      cases found with
      | some p =>
        rw [create_of_problem hproblem] at hf
        cases hf
      | none =>
        have hanswer := create_of_none (fun _ _ => rfl) hs hproblem hbase hpos granted hook
        split at hanswer
        · obtain ⟨h, hh⟩ := hanswer
          rw [hh] at hf
          cases hf
        · obtain ⟨bytes, hb⟩ := hanswer
          rw [hb] at hf
          cases hf
  · intro h
    exact ⟨_, create_of_fault (Settings.problem?_eq_error_iff.2 ⟨rfl, h⟩) granted hook⟩

end Heap
end MarkSweep
