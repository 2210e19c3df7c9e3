import Mathlib.Order.Interval.Finset.Nat
import MarkSweep.Proofs.Bitmap.Search
/-!
# Searches and counts of a bitmap, bit after bit

A search gives what a scan of one bit after the other gives (`findBit_eq_scan`).  The count goes from one set bit to
the next; where its end is a granule start, it comes to its end, and has counted every set bit once (`scans`).
-/
namespace MarkSweep
namespace Bitmap

/-- Looks at one bit after the other: the first among `lo ≤ i < hi` that equals `want`, or `hi`. -/
def scan (b : Bitmap) (want : Bool) (lo hi : Nat) : Nat :=
  ((List.range' lo (hi - lo)).find? fun i => b.testBit i == want).getD hi

/-- Looks at one bit after the other and counts the set ones. -/
def scanCount (b : Bitmap) (lo hi : Nat) : Nat := (List.range' lo (hi - lo)).countP b.testBit

/-- `a` is the granule of the first bit among `lo ≤ i < hi` that equals `want`, or the one of `hi`. -/
structure Finds (b : Bitmap) (want : Bool) (lo hi : Nat) (a : Address) : Prop where
  least : ∀ i, lo ≤ i → i < hi → b.testBit i = want → (∀ j, lo ≤ j → j < i → b.testBit j = !want) → a = b.addressOf i
  absent : (∀ i, lo ≤ i → i < hi → b.testBit i = !want) → a = b.addressOf hi
  scan : a = b.addressOf (b.scan want lo hi)

/-- The loop of a count that stands at `cur` ends, and has `n` more to count.  No step leaves the range. -/
inductive Counts (b : Bitmap) (stop : Address) : Address → Nat → Prop
  | done {cur : Address} (h : stop ≤ cur) : Counts b stop cur 0
  | next {cur : Address} {n : Nat} (h : cur < stop) (inside : cur + b.granuleBytes ≤ stop)
      (rest : Counts b stop (b.nextMarked (cur + b.granuleBytes) stop) n) : Counts b stop cur (n + 1)

/-- `a` is where a granule starts or the last one ends. -/
def OnGranule (b : Bitmap) (a : Address) : Prop := b.covered.start ≤ a ∧ b.granuleBytes ∣ a - b.covered.start

/-- **Searches and counts are what a scan of the bits gives**, wherever in their granules the addresses lie. -/
structure Scans (b : Bitmap) : Prop where
  nextMarked : ∀ start limit, b.Finds true (b.bitOf start) (b.bitOf limit) (b.nextMarked start limit)
  nextClear : ∀ start limit, b.Finds false (b.bitOf start) (b.bitOf limit) (b.nextClear start limit)
  within : ∀ start limit, b.covered.start ≤ limit → b.nextMarked start limit ≤ limit ∧ b.nextClear start limit ≤ limit
  /-- The loop ends, with this count and no other. -/
  counts : ∀ start stop n, b.OnGranule stop →
    (b.Counts stop (b.nextMarked start stop) n ↔ n = b.countMarked start stop)
  card : ∀ start stop, b.OnGranule stop →
    b.countMarked start stop = ((Finset.Ico (b.bitOf start) (b.bitOf stop)).filter fun i => b.testBit i = true).card
  scanCount : ∀ start stop, b.OnGranule stop → b.countMarked start stop = b.scanCount (b.bitOf start) (b.bitOf stop)
  additive : ∀ start mid stop, start ≤ mid → mid ≤ stop → b.OnGranule mid → b.OnGranule stop →
    b.countMarked start mid + b.countMarked mid stop = b.countMarked start stop
  nothing : ∀ start stop, stop ≤ start → b.OnGranule stop → b.countMarked start stop = 0

variable {b : Bitmap} {want : Bool} {lo hi i n m : Nat} {start mid stop cur : Address}

/-! ## The scan -/

theorem scan_of_le (b : Bitmap) (want : Bool) (h : hi ≤ lo) : b.scan want lo hi = hi := by
  rw [scan, Nat.sub_eq_zero_of_le h]; rfl

theorem scan_spec (b : Bitmap) (want : Bool) (h : lo ≤ hi) :
    lo ≤ b.scan want lo hi ∧ b.scan want lo hi ≤ hi ∧
      (∀ i, lo ≤ i → i < b.scan want lo hi → b.testBit i = !want) ∧
      (b.scan want lo hi < hi → b.testBit (b.scan want lo hi) = want) := by
  have hmiss {i : Nat} (hi : (!(b.testBit i == want)) = true) : b.testBit i = !want := by
    cases want <;> simpa using hi
  unfold scan
  cases hf : (List.range' lo (hi - lo)).find? fun i => b.testBit i == want with
  | none =>
    have hnone := List.find?_range'_eq_none.1 hf
    rw [Nat.add_sub_cancel' h] at hnone
    exact ⟨h, Nat.le_refl _, fun i h₁ h₂ => hmiss (hnone i h₁ h₂), fun hlt => absurd hlt (Nat.lt_irrefl _)⟩
  | some i =>
    obtain ⟨hhit, hmem, hskip⟩ := List.find?_range'_eq_some.1 hf
    obtain ⟨hlo, hhi⟩ := List.mem_range'_1.1 hmem
    rw [Nat.add_sub_cancel' h] at hhi
    exact ⟨hlo, Nat.le_of_lt hhi, fun j h₁ h₂ => hmiss (hskip j h₁ h₂), fun _ => eq_of_beq hhit⟩

/-- **The search over words finds what the scan finds.** -/
theorem findBit_eq_scan (b : Bitmap) (want : Bool) (lo hi : Nat) : b.findBit want lo hi = b.scan want lo hi := by
  rcases Nat.le_total hi lo with h | h
  · rw [scan_of_le b want h, findBit, if_pos h]
  · obtain ⟨hlo, hhi, hskip, hhit⟩ := scan_spec b want h
    exact findBit_eq hlo hhi hskip hhit

theorem scan_eq (hlo : lo ≤ i) (hhi : i ≤ hi) (hskip : ∀ j, lo ≤ j → j < i → b.testBit j = !want)
    (hhit : i < hi → b.testBit i = want) : b.scan want lo hi = i := by
  rw [← findBit_eq_scan, findBit_eq hlo hhi hskip hhit]

theorem scan_le (b : Bitmap) (want : Bool) (lo hi : Nat) : b.scan want lo hi ≤ hi := by
  rcases Nat.le_total hi lo with h | h
  · exact Nat.le_of_eq (scan_of_le b want h)
  · exact (scan_spec b want h).2.1

theorem finds_scan (b : Bitmap) (want : Bool) (lo hi : Nat) :
    b.Finds want lo hi (b.addressOf (b.scan want lo hi)) where
  least i hlo hhi hhit hskip := by rw [scan_eq hlo (Nat.le_of_lt hhi) hskip fun _ => hhit]
  absent hskip := by
    rcases Nat.le_total hi lo with h | h
    · rw [scan_of_le b want h]
    · rw [scan_eq h (Nat.le_refl _) hskip fun hlt => absurd hlt (Nat.lt_irrefl _)]
  scan := rfl

/-! ## Counting bit after bit -/

theorem scanCount_of_le (b : Bitmap) (h : hi ≤ lo) : b.scanCount lo hi = 0 := by
  rw [scanCount, Nat.sub_eq_zero_of_le h]; rfl

theorem scanCount_add (b : Bitmap) (h : lo ≤ m) (h' : m ≤ hi) :
    b.scanCount lo m + b.scanCount m hi = b.scanCount lo hi := by
  have hsplit : List.range' lo (m - lo) ++ List.range' m (hi - m) = List.range' lo (hi - lo) := by
    have hm : m = lo + (m - lo) := by omega
    rw [show hi - lo = (m - lo) + (hi - m) by omega, ← List.range'_append_1, ← hm]
  rw [scanCount, scanCount, scanCount, ← hsplit, List.countP_append]

theorem scanCount_eq_zero (h : ∀ i, lo ≤ i → i < hi → b.testBit i = false) : b.scanCount lo hi = 0 := by
  rw [scanCount, List.countP_eq_zero]
  intro i hi
  rw [List.mem_range'_1] at hi
  rw [h i hi.1 (by omega)]
  exact Bool.false_ne_true

/-- Either the scan stops at the end and there is nothing to count, or it stops at a set bit, and the count goes on
behind it. -/
theorem scan_cases (b : Bitmap) (lo hi : Nat) : (b.scan true lo hi = hi ∧ b.scanCount lo hi = 0) ∨
    ∃ i, b.scan true lo hi = i ∧ lo ≤ i ∧ i < hi ∧ b.scanCount lo hi = b.scanCount (i + 1) hi + 1 := by
  rcases Nat.le_total hi lo with h | h
  · exact .inl ⟨scan_of_le b true h, scanCount_of_le b h⟩
  obtain ⟨hlo, hhi, hskip, hhit⟩ := scan_spec b true h
  generalize b.scan true lo hi = i at *
  rcases Nat.lt_or_eq_of_le hhi with hlt | rfl
  · have hone : b.scanCount i (i + 1) = 1 := by
      rw [scanCount, Nat.add_sub_cancel_left, List.range'_one, List.countP_singleton, if_pos (hhit hlt)]
    refine .inr ⟨i, rfl, hlo, hlt, ?_⟩
    rw [← scanCount_add b hlo hhi, scanCount_eq_zero hskip, ← scanCount_add b (Nat.le_add_right i 1) hlt, hone,
      Nat.zero_add, Nat.add_comm]
  · exact .inl ⟨rfl, scanCount_eq_zero hskip⟩

/-! ## Addresses -/

theorem bitOf_addressOf (hg : 0 < b.granuleBytes) (i : Nat) : b.bitOf (b.addressOf i) = i := by
  rw [bitOf, addressOf, Nat.add_sub_cancel_left, Nat.mul_div_cancel _ hg]

theorem OnGranule.addressOf_bitOf (h : b.OnGranule stop) : b.addressOf (b.bitOf stop) = stop := by
  rw [addressOf, bitOf, Nat.div_mul_cancel h.2, Nat.add_sub_cancel' h.1]

theorem addressOf_succ (b : Bitmap) (i : Nat) : b.addressOf i + b.granuleBytes = b.addressOf (i + 1) := by
  rw [addressOf, addressOf, Nat.add_assoc, ← Nat.succ_mul]

theorem addressOf_le (b : Bitmap) (h : i ≤ n) : b.addressOf i ≤ b.addressOf n :=
  Nat.add_le_add_left (Nat.mul_le_mul_right _ h) _

theorem addressOf_lt_iff (hg : 0 < b.granuleBytes) : b.addressOf i < b.addressOf n ↔ i < n := by
  rw [addressOf, addressOf, Nat.add_lt_add_iff_left, Nat.mul_lt_mul_right hg]

theorem addressOf_bitOf_le (h : b.covered.start ≤ start) : b.addressOf (b.bitOf start) ≤ start := by
  have hle := Nat.div_mul_le_self (start - b.covered.start) b.granuleBytes
  exact (Nat.le_sub_iff_add_le' h).1 hle

theorem bitOf_mono (b : Bitmap) (h : start ≤ stop) : b.bitOf start ≤ b.bitOf stop :=
  Nat.div_le_div_right (Nat.sub_le_sub_right h _)

theorem nextMarked_eq (b : Bitmap) (start stop : Address) :
    b.nextMarked start stop = b.addressOf (b.scan true (b.bitOf start) (b.bitOf stop)) := by
  rw [nextMarked, findBit_eq_scan]

/-- From a set bit the count goes on behind its granule. -/
theorem nextMarked_addressOf (hg : 0 < b.granuleBytes) (i : Nat) (stop : Address) :
    b.nextMarked (b.addressOf i + b.granuleBytes) stop = b.addressOf (b.scan true (i + 1) (b.bitOf stop)) := by
  rw [nextMarked_eq, addressOf_succ, bitOf_addressOf hg]

/-! ## The count -/

/-- **The loop ends**: each step passes over a bit. -/
theorem counts_scan (hg : 0 < b.granuleBytes) (hstop : b.OnGranule stop) (lo : Nat) :
    b.Counts stop (b.addressOf (b.scan true lo (b.bitOf stop))) (b.scanCount lo (b.bitOf stop)) := by
  have hend := hstop.addressOf_bitOf
  generalize hhi : b.bitOf stop = hi at *
  induction hn : hi - lo using Nat.strongRecOn generalizing lo with
  | ind n ih =>
    rcases scan_cases b lo hi with ⟨hscan, hzero⟩ | ⟨i, hscan, hlo, hlt, hcount⟩
    · rw [hscan, hzero, hend]
      exact .done (Nat.le_refl _)
    · rw [hscan, hcount]
      have hrest := ih (hi - (i + 1)) (by omega) (i + 1) rfl
      rw [← hhi, ← nextMarked_addressOf hg, hhi] at hrest
      refine .next ?_ ?_ hrest
      · rw [← hend]
        exact (addressOf_lt_iff hg).2 hlt
      · rw [addressOf_succ, ← hend]
        exact addressOf_le b hlt

/-- With fuel for every bit, the fuelled loop is the loop. -/
theorem Counts.countFrom (h : b.Counts stop cur m) : ∀ {n : Nat} (count : Nat), m ≤ n →
    b.countFrom stop n cur count = count + m := by
  induction h with
  | done h =>
    intro n count _
    cases n with
    | zero => rfl
    | succ n => rw [Bitmap.countFrom, if_neg (Nat.not_lt_of_le h), Nat.add_zero]
  | next hlt _ _ ih =>
    intro n count hn
    cases n with
    | zero => cases hn
    | succ n => rw [Bitmap.countFrom, if_pos hlt, ih _ (Nat.le_of_succ_le_succ hn), Nat.add_assoc, Nat.add_comm 1]

theorem Counts.unique (h : b.Counts stop cur n) : ∀ {m : Nat}, b.Counts stop cur m → n = m := by
  induction h with
  | done h =>
    intro m h'
    cases h' with
    | done => rfl
    | next hlt => exact absurd hlt (Nat.not_lt_of_le h)
  | next hlt _ _ ih =>
    intro m h'
    cases h' with
    | done h => exact absurd hlt (Nat.not_lt_of_le h)
    | next _ _ rest => rw [ih rest]

theorem countMarked_eq (hg : 0 < b.granuleBytes) (hstop : b.OnGranule stop) (start : Address) :
    b.countMarked start stop = b.scanCount (b.bitOf start) (b.bitOf stop) := by
  have hle : b.scanCount (b.bitOf start) (b.bitOf stop) ≤ b.bitOf stop - b.bitOf start :=
    Nat.le_trans List.countP_le_length (Nat.le_of_eq List.length_range')
  rw [countMarked, nextMarked_eq, (counts_scan hg hstop _).countFrom _ hle, Nat.zero_add]

/-- **A bitmap is searched and counted as if bit after bit.** -/
theorem scans (b : Bitmap) (hg : 0 < b.granuleBytes) : b.Scans := by
  have hcount {start stop : Address} (hstop : b.OnGranule stop) := countMarked_eq hg hstop start
  constructor
  case nextMarked =>
    intro start limit
    rw [nextMarked_eq]
    exact finds_scan b true _ _
  case nextClear =>
    intro start limit
    rw [nextClear, findBit_eq_scan]
    exact finds_scan b false _ _
  case within =>
    intro start limit h
    rw [nextMarked_eq, nextClear, findBit_eq_scan]
    exact ⟨Nat.le_trans (addressOf_le b (scan_le b true _ _)) (addressOf_bitOf_le h),
      Nat.le_trans (addressOf_le b (scan_le b false _ _)) (addressOf_bitOf_le h)⟩
  case counts =>
    intro start stop n hstop
    have hloop := counts_scan hg hstop (b.bitOf start)
    rw [← nextMarked_eq, ← hcount hstop] at hloop
    exact ⟨fun h => h.unique hloop, fun h => h ▸ hloop⟩
  case card =>
    intro start stop hstop
    rw [hcount hstop, scanCount, List.countP_eq_length_filter]
    show _ = (List.filter (fun i => decide (b.testBit i = true)) (List.range' _ _)).length
    simp only [Bool.decide_eq_true]
  case scanCount => exact fun start stop hstop => hcount hstop
  case additive =>
    intro start mid stop h h' hmid hstop
    rw [hcount hmid, hcount hstop, hcount hstop, scanCount_add b (bitOf_mono b h) (bitOf_mono b h')]
  case nothing =>
    intro start stop h hstop
    rw [hcount hstop, scanCount_of_le b (bitOf_mono b h)]

/-- A search and a count from inside a marked granule, a search over the border of two words, and one that finds
nothing. -/
theorem exists_scans : ∃ b : Bitmap, b.Scans ∧ (List.range 100).filter b.testBit = [1, 63, 64] ∧
    b.nextMarked 4109 4896 = 4104 ∧ b.nextClear 4601 4896 = 4096 + 65 * 8 ∧ b.nextMarked 4616 4895 = 4888 ∧
    b.OnGranule 4896 ∧ b.countMarked 4109 4896 = 3 ∧ b.countMarked 4896 4096 = 0 := by
  have hscans := scans ⟨⟨4096, 4896⟩, 8, 2, ⟨4096, "map", true⟩, (Memory.blank.setWord 0 (2 + 2 ^ 63)).setWord 1 1⟩
    (by decide)
  refine ⟨_, hscans, ?_, ?_, ?_, ?_, ⟨by decide, by decide⟩, ?_, ?_⟩ <;> decide +kernel

end Bitmap
end MarkSweep
