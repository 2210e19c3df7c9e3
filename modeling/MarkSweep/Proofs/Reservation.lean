import MarkSweep.Memory.Reservation
import MarkSweep.Proofs.Object
import MarkSweep.Proofs.Run
/-!
# Growth by whole pages

`Grown` are the spaces that growth in whole pages and stores make of a reservation: their committed part is a prefix of
whole pages within the reservation.  A growth is checked, and it is made or refused as a whole, as long as the bytes that
it adds up are a 64-bit number: the sums are checked for their bound only after they were computed
(`growth_checked`).
-/
namespace MarkSweep

/-! ## Pages -/

namespace PageRanges

variable {pages : PageRanges} {lo hi page : Nat}

theorem has_iff : pages.has page = true ↔ ∃ p ∈ pages, p.1 ≤ page ∧ page < p.2 := by
  simp [has]

theorem has_remove : (pages.remove lo hi).has page = true ↔ pages.has page = true ∧ ¬(lo ≤ page ∧ page < hi) := by
  simp only [has_iff, remove, List.mem_flatMap, List.mem_filter, List.mem_cons, List.not_mem_nil, or_false,
    decide_eq_true_eq]
  constructor
  · rintro ⟨p, ⟨⟨a, b⟩, hmem, rfl | rfl, -⟩, hlo, hhi⟩
    · exact ⟨⟨(a, b), hmem, by dsimp only at *; omega⟩, by dsimp only at *; omega⟩
    · exact ⟨⟨(a, b), hmem, by dsimp only at *; omega⟩, by dsimp only at *; omega⟩
  · rintro ⟨⟨⟨a, b⟩, hmem, hlo, hhi⟩, hout⟩
    dsimp only at *
    by_cases h : page < lo
    · exact ⟨(a, min b lo), ⟨(a, b), hmem, .inl rfl, by dsimp only; omega⟩, by dsimp only; omega⟩
    · exact ⟨(max a hi, b), ⟨(a, b), hmem, .inr rfl, by dsimp only; omega⟩, by dsimp only; omega⟩

theorem has_insert : (pages.insert lo hi).has page = true ↔ lo ≤ page ∧ page < hi ∨ pages.has page = true := by
  have hremove := @has_remove pages lo hi page
  rw [has_iff] at hremove ⊢
  simp only [insert, List.mem_cons, exists_eq_or_imp]
  rw [hremove]
  by_cases h : lo ≤ page ∧ page < hi <;> simp [h]

end PageRanges

/-! ## Reservations -/

namespace Reservation

/-- A size in whole pages, and at least one. -/
def wholePages (bytes : Nat) : Nat := (max bytes 1 + (pageBytes - 1)) / pageBytes * pageBytes

/-- **A reservation is answered**: it is made in whole pages, or refused. -/
def Answered (base : Address) (bytes : Nat) (available : Nat → Bool) : Prop :=
  reserve base bytes available = .ok ⟨base, wholePages bytes, [], .blank⟩ ∨
    reserve base bytes available = .error (.error (.reserve (wholePages bytes)))

variable {base : Address} {bytes : Nat} {available : Nat → Bool}

theorem reserve_of_lt (h : max bytes 1 + (pageBytes - 1) < addressLimit) : reserve base bytes available =
    if available (wholePages bytes) then .ok ⟨base, wholePages bytes, [], .blank⟩
    else .error (.error (.reserve (wholePages bytes))) := by
  unfold reserve
  rw [except_bind_of_ok (lift_fault_of_ok (alignUp_eq_ok_iff.2 ⟨by decide, h, rfl⟩))]
  rfl

theorem reserve_of_le (h : addressLimit ≤ max bytes 1 + (pageBytes - 1)) :
    reserve base bytes available = .error (.fault .overflow) := by
  have hsum : checkedAdd (max bytes 1) (pageBytes - 1) = .error .overflow := by
    rw [checkedAdd, if_neg (Nat.not_lt_of_le h)]
  have hround : alignUp (max bytes 1) pageBytes = .error .overflow := by
    unfold alignUp
    rw [except_bind_of_ok (show checkedSub pageBytes 1 = .ok (pageBytes - 1) from rfl), except_bind_of_error hsum]
  unfold reserve
  rw [except_bind_of_error (lift_fault_of_error hround)]

theorem reserve_eq_ok {r : Reservation} (h : reserve base bytes available = .ok r) :
    wholePages bytes < addressLimit ∧ r = ⟨base, wholePages bytes, [], .blank⟩ := by
  rcases Nat.lt_or_ge (max bytes 1 + (pageBytes - 1)) addressLimit with hlt | hge
  · rw [reserve_of_lt hlt] at h
    split at h
    · cases h
      exact ⟨Nat.lt_of_le_of_lt (Nat.div_mul_le_self _ _) hlt, rfl⟩
    · cases h
  · rw [reserve_of_le hge] at h
    cases h

/-- **A reservation is answered unless rounding it up overflows.** -/
theorem answered_iff (base : Address) (bytes : Nat) (available : Nat → Bool) :
    Answered base bytes available ↔ max bytes 1 + (pageBytes - 1) < addressLimit := by
  unfold Answered
  constructor
  · intro h
    refine Nat.lt_of_not_le fun hge => ?_
    rw [reserve_of_le hge] at h
    rcases h with h | h <;> cases h
  · intro h
    rw [reserve_of_lt h]
    split
    · exact .inl rfl
    · exact .inr rfl

/-! ## Backing a part -/

variable {r : Reservation} {lo hi i : Nat}

theorem peek_back (hlo : pageBytes ∣ lo) (hhi : pageBytes ∣ hi) : (r.back lo hi).peek i =
    if lo / wordBytes ≤ i ∧ i < hi / wordBytes then 0 else r.peek i := by
  obtain ⟨a, rfl⟩ := hlo
  obtain ⟨b, rfl⟩ := hhi
  simp only [back, peek, Memory.zero, Memory.read, Memory.word_fillWords, div_add_mul]
  unfold pageBytes wordBytes Address at *
  by_cases h : 4096 * a / 8 ≤ i ∧ i < 4096 * b / 8
  · rw [if_pos h, if_pos (by omega)]
  · rw [if_neg h, if_neg (by omega)]

theorem holdsWord_back (hlo : pageBytes ∣ lo) (hhi : pageBytes ∣ hi) : (r.back lo hi).holdsWord i = true ↔
    lo / wordBytes ≤ i ∧ i < hi / wordBytes ∨ r.holdsWord i = true := by
  obtain ⟨a, rfl⟩ := hlo
  obtain ⟨b, rfl⟩ := hhi
  unfold holdsWord back
  rw [PageRanges.has_insert]
  refine or_congr ?_ Iff.rfl
  unfold pageBytes wordBytes
  omega

end Reservation

/-! ## Growth -/

namespace CommittedSpace

variable {s s' : CommittedSpace} {granted : Bool} {bytes : Nat}

/-- The spaces that growth in whole pages, and stores, make of a reservation. -/
inductive Grown : CommittedSpace → Prop
  | create {base : Address} {size bytes : Nat} {available : Nat → Bool} {granted : Bool} {r : Reservation}
      {s : CommittedSpace} (reserved : Reservation.reserve base size available = .ok r) (whole : pageBytes ∣ bytes)
      (run : create r granted bytes = .ok s) : Grown s
  | expand {s s' : CommittedSpace} {granted : Bool} {bytes : Nat} (grown : Grown s) (whole : pageBytes ∣ bytes)
      (run : s.expandBy granted bytes = .ok s') : Grown s'
  | store {s : CommittedSpace} (grown : Grown s) (i v : Nat) : Grown { s with reservation := s.reservation.poke i v }

/-- **A growth is made or refused as a whole.**  Where it is refused there is no other space than the old one. -/
structure Grows (s : CommittedSpace) (granted : Bool) (bytes : Nat) : Prop where
  exceeds : s.reservation.size < s.committed + bytes →
    s.expandBy granted bytes = .error (.error (.invalidSettings "commit request exceeds reserved space"))
  refused : s.committed + bytes ≤ s.reservation.size → bytes ≠ 0 → granted = false →
    s.expandBy granted bytes = .error (.error (.commit "heap" bytes))
  made : s.committed + bytes ≤ s.reservation.size → bytes = 0 ∨ granted = true →
    ∃ s', s.expandBy granted bytes = .ok s' ∧ s'.committed = s.committed + bytes ∧
      s'.reservation.base = s.reservation.base ∧ s'.reservation.size = s.reservation.size ∧
      (∀ i < s.committed / wordBytes, s'.reservation.peek i = s.reservation.peek i) ∧
      ∀ i, s.committed / wordBytes ≤ i → i < s'.committed / wordBytes → s'.reservation.peek i = 0

theorem expandBy_of_lt (hne : bytes ≠ 0) (h : s.committed + bytes < addressLimit) : s.expandBy granted bytes =
    if s.reservation.size < s.committed + bytes then
      .error (.error (.invalidSettings "commit request exceeds reserved space"))
    else if granted ∧ s.committed % pageBytes = 0 then
      .ok ⟨s.reservation.back s.committed (s.committed + bytes), s.committed + bytes⟩
    else .error (.error (.commit "heap" bytes)) := by
  have hsum : checkedAdd s.committed bytes = .ok (s.committed + bytes) := by rw [checkedAdd, if_pos h]
  unfold expandBy
  rw [if_neg hne, except_bind_of_ok (lift_fault_of_ok hsum)]
  split <;> rfl

theorem expandBy_of_le (hne : bytes ≠ 0) (h : addressLimit ≤ s.committed + bytes) :
    s.expandBy granted bytes = .error (.fault .overflow) := by
  have hsum : checkedAdd s.committed bytes = .error .overflow := by rw [checkedAdd, if_neg (Nat.not_lt_of_le h)]
  unfold expandBy
  rw [if_neg hne, except_bind_of_error (lift_fault_of_error hsum)]

/-- What a growth that is made says. -/
theorem expandBy_eq_ok (h : s.expandBy granted bytes = .ok s') : bytes = 0 ∧ s' = s ∨
    s.committed + bytes ≤ s.reservation.size ∧
      s' = ⟨s.reservation.back s.committed (s.committed + bytes), s.committed + bytes⟩ := by
  by_cases hne : bytes = 0
  · subst hne
    cases h
    exact .inl ⟨rfl, rfl⟩
  · by_cases hlt : s.committed + bytes < addressLimit
    · rw [expandBy_of_lt hne hlt] at h
      split at h
      · cases h
      next hfits =>
      split at h
      · cases h
        exact .inr ⟨Nat.le_of_not_lt hfits, rfl⟩
      · cases h
    · rw [expandBy_of_le hne (Nat.le_of_not_lt hlt)] at h
      cases h

theorem create_eq_ok {r : Reservation} (h : create r granted bytes = .ok s) : s.region = ⟨r.base, r.base + bytes⟩ := by
  rcases expandBy_eq_ok h with ⟨rfl, rfl⟩ | ⟨-, rfl⟩
  · rfl
  · exact congrArg (fun n => Region.mk r.base (r.base + n)) (Nat.zero_add bytes)

/-- The committed part is a prefix of whole pages. -/
structure Prefix (s : CommittedSpace) : Prop where
  whole : pageBytes ∣ s.committed
  committed_le : s.committed ≤ s.reservation.size
  size_lt : s.reservation.size < addressLimit
  holdsWord : ∀ i, s.reservation.holdsWord i = true ↔ i < s.committed / wordBytes

theorem Prefix.expand (h : s.Prefix) (whole : pageBytes ∣ bytes) (run : s.expandBy granted bytes = .ok s') :
    s'.Prefix := by
  rcases expandBy_eq_ok run with ⟨-, rfl⟩ | ⟨hle, rfl⟩
  · exact h
  · refine ⟨Nat.dvd_add h.whole whole, hle, h.size_lt, fun i => ?_⟩
    rw [Reservation.holdsWord_back h.whole (Nat.dvd_add h.whole whole), h.holdsWord]
    have := Nat.div_le_div_right (c := wordBytes) (Nat.le_add_right s.committed bytes)
    dsimp only
    omega

theorem Grown.isPrefix (h : Grown s) : s.Prefix := by
  induction h with
  | @create base size bytes available granted r s reserved whole run =>
    obtain ⟨hsize, rfl⟩ := Reservation.reserve_eq_ok reserved
    refine Prefix.expand ⟨Nat.dvd_zero _, Nat.zero_le _, hsize, fun i => ?_⟩ whole run
    simp [Reservation.holdsWord, PageRanges.has]
  | expand _ whole run ih => exact ih.expand whole run
  | store _ i v ih => exact ⟨ih.whole, ih.committed_le, ih.size_lt, ih.holdsWord⟩

theorem Prefix.grows_iff (h : s.Prefix) (granted : Bool) (whole : pageBytes ∣ bytes) :
    s.Grows granted bytes ↔ bytes = 0 ∨ s.committed + bytes < addressLimit := by
  have hle := h.committed_le
  have hsize := h.size_lt
  constructor
  · intro hgrows
    by_cases hne : bytes = 0
    · exact .inl hne
    · refine .inr (Nat.lt_of_not_le fun hge => ?_)
      have hexceeds := hgrows.exceeds (by omega)
      rw [expandBy_of_le hne hge] at hexceeds
      cases hexceeds
  · intro hsum
    by_cases hne : bytes = 0
    · subst hne
      refine ⟨fun hlt => absurd hle (Nat.not_le_of_lt hlt), fun _ hne => absurd rfl hne, fun _ _ => ?_⟩
      exact ⟨s, rfl, rfl, rfl, rfl, fun _ _ => rfl, fun i hlo hhi => absurd hlo (Nat.not_le_of_lt hhi)⟩
    · have hrun := @expandBy_of_lt s granted bytes hne (hsum.resolve_left hne)
      have hpage : s.committed % pageBytes = 0 := Nat.mod_eq_zero_of_dvd h.whole
      constructor
      case exceeds =>
        intro hlt
        rw [hrun, if_pos hlt]
      case refused =>
        intro hfits _ hno
        rw [hrun, if_neg (Nat.not_lt_of_le hfits), if_neg fun hyes => by simp [hno] at hyes]
      case made =>
        intro hfits hyes
        rw [hrun, if_neg (Nat.not_lt_of_le hfits), if_pos ⟨hyes.resolve_left hne, hpage⟩]
        have hpeek (i : Nat) := Reservation.peek_back (r := s.reservation) (i := i) h.whole (Nat.dvd_add h.whole whole)
        refine ⟨_, rfl, rfl, rfl, rfl, fun i hi => ?_, fun i hlo hhi => ?_⟩
        · rw [hpeek, if_neg fun hin => Nat.not_lt_of_le hin.1 hi]
        · rw [hpeek, if_pos ⟨hlo, hhi⟩]

end CommittedSpace

/-- **Growth is checked as long as its sums are 64-bit numbers**, and no longer: a reservation is answered unless
rounding it up overflows, and a space grows as a whole, or not at all, unless the bytes it would have overflow. -/
theorem growth_checked (base size : Nat) (available : Nat → Bool) {s : CommittedSpace} (hs : s.Grown) (granted : Bool)
    {bytes : Nat} (whole : pageBytes ∣ bytes) :
    (Reservation.Answered base size available ↔ max size 1 + (pageBytes - 1) < addressLimit) ∧
    s.committed ≤ s.reservation.size ∧ (∀ i, s.reservation.holdsWord i = true ↔ i < s.committed / wordBytes) ∧
    (s.Grows granted bytes ↔ bytes = 0 ∨ s.committed + bytes < addressLimit) := by
  have hpages := hs.isPrefix
  exact ⟨Reservation.answered_iff base size available, hpages.committed_le, hpages.holdsWord, hpages.grows_iff granted whole⟩

/-- The largest size cannot be rounded up, and the largest growth in whole pages cannot be added to one page. -/
theorem exists_unchecked : ∃ s : CommittedSpace, s.Grown ∧
    Reservation.reserve 0 18446744073709551615 = .error (.fault .overflow) ∧
    ¬Reservation.Answered 0 18446744073709551615 belowLimit ∧
    s.expandBy true 18446744073709547520 = .error (.fault .overflow) ∧ ¬s.Grows true 18446744073709547520 := by
  have hgrown : CommittedSpace.Grown ⟨(⟨0, 8192, [], .blank⟩ : Reservation).back 0 4096, 4096⟩ :=
    @CommittedSpace.Grown.create 0 8192 4096 belowLimit true _ _ rfl ⟨1, rfl⟩ rfl
  obtain ⟨hanswered, -, -, hgrows⟩ :=
    @growth_checked 0 18446744073709551615 belowLimit _ hgrown true 18446744073709547520 (by decide)
  refine ⟨_, hgrown, rfl, ?_, rfl, ?_⟩
  · rw [hanswered]
    decide
  · rw [hgrows]
    decide

end MarkSweep
