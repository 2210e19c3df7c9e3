import Mathlib.Order.Interval.Set.Basic
import MarkSweep.Proofs.Bitmap.Creation
import MarkSweep.Proofs.Bitmap.Update
/-!
# A bitmap is a set of numbers

An update of a bitmap is an operation on the set of its set bits, and so is every sequence of updates
(`exact_of_within`).  While the addresses stay in the covered region, the words behind the map are neither read nor
written.
-/
namespace MarkSweep
namespace Bitmap

inductive Update where
  | mark (a : Address)
  | clear (a : Address)
  | markRange (start stop : Address)
  | clearRange (start stop : Address)

/-- The numbers of the set bits. -/
def members (b : Bitmap) : Set Nat := {i | b.testBit i = true}

namespace Update

/-- An address of `r`, or a range whose ends lie in `r` or at its end; the ends may come in any order. -/
def Within (r : Region) : Update → Prop
  | mark a | clear a => r.start ≤ a ∧ a < r.stop
  | markRange start stop | clearRange start stop =>
    (r.start ≤ start ∧ start ≤ r.stop) ∧ r.start ≤ stop ∧ stop ≤ r.stop

instance (r : Region) : DecidablePred (Within r)
  | mark _ | clear _ => inferInstanceAs (Decidable (_ ∧ _))
  | markRange _ _ | clearRange _ _ => inferInstanceAs (Decidable ((_ ∧ _) ∧ _))

def run (b : Bitmap) : Update → Bitmap
  | mark a => b.mark a
  | clear a => b.clear a
  | markRange start stop => b.markRange start stop
  | clearRange start stop => b.clearRange start stop

/-- The set operation an update names, where `bitOf` numbers the granules. -/
def onSet (bitOf : Address → Nat) (s : Set Nat) : Update → Set Nat
  | mark a => insert (bitOf a) s
  | clear a => s \ {bitOf a}
  | markRange start stop => s ∪ Set.Ico (bitOf start) (bitOf stop)
  | clearRange start stop => s \ Set.Ico (bitOf start) (bitOf stop)

end Update

/-- The region is whole granules, and the map has a bit for each of them. -/
structure Whole (b : Bitmap) : Prop where
  whole : b.granuleBytes ∣ b.covered.byteSize
  fits : b.covered.byteSize / b.granuleBytes ≤ b.mapWords * mapWordBits

/-- The same map, whatever stands behind it. -/
structure SameMap (b c : Bitmap) : Prop where
  frame : b.SameFrame c
  words : ∀ k < b.mapWords, c.words.word k = b.words.word k

/-- **The updates `us` took `b` to `c`, and were set operations.** -/
structure Exact (b : Bitmap) (us : List Update) (c : Bitmap) : Prop where
  frame : b.SameFrame c
  members : c.members = us.foldl (Update.onSet b.bitOf) b.members
  isMarked : ∀ a, c.isMarked a = true ↔ b.bitOf a ∈ us.foldl (Update.onSet b.bitOf) b.members
  /-- Every bit that was added belongs to a granule of the region. -/
  granules : ∀ i ∈ c.members, i ∈ b.members ∨ i < b.covered.byteSize / b.granuleBytes
  /-- No word behind the map is written. -/
  outside : ∀ k, b.mapWords ≤ k → c.words.word k = b.words.word k
  /-- No word behind the map is read: other words there lead to the same map. -/
  inside : ∀ d, b.SameMap d → c.SameMap (us.foldl Update.run d)
  answers : ∀ d, c.SameMap d → ∀ a, b.covered.contains a = true → d.isMarked a = c.isMarked a

variable {b c d : Bitmap} {u : Update} {us vs : List Update} {lo hi n k : Nat} {a : Address}

/-! ## What depends on the frame alone -/

theorem SameFrame.bitOf_eq (h : b.SameFrame c) : c.bitOf = b.bitOf := funext h.bitOf

theorem Whole.of_sameFrame (hb : b.Whole) (h : b.SameFrame c) : c.Whole := by
  obtain ⟨hcovered, hgranule, hwords, -⟩ := h
  constructor
  · rw [hcovered, hgranule]; exact hb.whole
  · rw [hcovered, hgranule, hwords]; exact hb.fits

theorem sameFrame_run (b : Bitmap) (u : Update) : b.SameFrame (u.run b) := by
  cases u with
  | mark a | clear a => exact ⟨rfl, rfl, rfl, rfl⟩
  | markRange start stop | clearRange start stop => exact sameFrame_updateBits b _ _ _

/-! ## Addresses of the region -/

theorem Whole.bitOf_lt (hb : b.Whole) (hstart : b.covered.start ≤ a) (hstop : a < b.covered.stop) :
    b.bitOf a < b.covered.byteSize / b.granuleBytes := by
  have hlt : a - b.covered.start < b.covered.byteSize := Nat.sub_lt_sub_right hstart hstop
  obtain ⟨n, hn⟩ := hb.whole
  have hpos : 0 < b.granuleBytes := Nat.pos_of_mul_pos_right (hn ▸ Nat.lt_of_le_of_lt (Nat.zero_le _) hlt)
  rw [hn, Nat.mul_div_cancel_left _ hpos]
  rw [hn] at hlt
  exact Nat.div_lt_of_lt_mul hlt

theorem bitOf_le (b : Bitmap) (hstop : a ≤ b.covered.stop) : b.bitOf a ≤ b.covered.byteSize / b.granuleBytes :=
  Nat.div_le_div_right (Nat.sub_le_sub_right hstop _)

/-! ## One update, bit by bit -/

theorem isMarked_iff (b : Bitmap) (a : Address) : b.isMarked a = true ↔ b.bitOf a ∈ b.members := Iff.rfl

/-- **An update is its set operation.** -/
theorem members_run (b : Bitmap) (u : Update) : (u.run b).members = u.onSet b.bitOf b.members := by
  ext i
  cases u with
  | mark a =>
    show (b.mark a).testBit i = true ↔ i ∈ insert (b.bitOf a) b.members
    rw [testBit_mark, Bool.or_eq_true, decide_eq_true_eq]
    exact or_congr_left eq_comm
  | clear a =>
    show (b.clear a).testBit i = true ↔ i ∈ b.members \ {b.bitOf a}
    rw [testBit_clear, Bool.and_eq_true, Bool.not_eq_true', decide_eq_false_iff_not]
    exact and_comm.trans (and_congr_right' (not_congr eq_comm))
  | markRange start stop =>
    show (b.markRange start stop).testBit i = true ↔ i ∈ b.members ∪ Set.Ico (b.bitOf start) (b.bitOf stop)
    rw [testBit_markRange, Bool.or_eq_true, decide_eq_true_eq]
    exact or_comm
  | clearRange start stop =>
    show (b.clearRange start stop).testBit i = true ↔ i ∈ b.members \ Set.Ico (b.bitOf start) (b.bitOf stop)
    rw [testBit_clearRange, Bool.and_eq_true, Bool.not_eq_true', decide_eq_false_iff_not]
    exact and_comm

theorem mem_onSet (hb : b.Whole) (hu : u.Within b.covered) {s : Set Nat} {i : Nat} (hi : i ∈ u.onSet b.bitOf s) :
    i ∈ s ∨ i < b.covered.byteSize / b.granuleBytes := by
  cases u with
  | mark a =>
    rcases hi with rfl | hi
    · exact .inr (hb.bitOf_lt hu.1 hu.2)
    · exact .inl hi
  | clear a | clearRange start stop => exact .inl hi.1
  | markRange start stop => exact hi.imp id fun h => Nat.lt_of_lt_of_le h.2 (b.bitOf_le hu.2.2)

/-! ## One update, word by word -/

theorem word_modifyWord (words : Memory) (i k : Nat) (f : UInt64 → UInt64) :
    (modifyWord words i f).word k = if i = k then (f (mapWord words i)).toNat else words.word k :=
  Memory.word_setWord _ _ _ _

theorem word_updateBits_of_le (b : Bitmap) (set : Bool) (hhi : hi ≤ n * mapWordBits) (hk : n ≤ k) :
    (b.updateBits set lo hi).words.word k = b.words.word k := by
  unfold updateBits
  split
  · rfl
  have hfirst : lo / mapWordBits < n := by unfold mapWordBits at *; omega
  have hlast : (hi - 1) / mapWordBits < n := by unfold mapWordBits at *; omega
  simp only
  split
  · rw [word_modifyWord, if_neg (by omega)]
  · rw [word_modifyWord, if_neg (by omega), Memory.word_fillWords, if_neg (by omega), word_modifyWord, if_neg (by omega)]

theorem Whole.word_run (hb : b.Whole) (hu : u.Within b.covered) (hk : b.mapWords ≤ k) :
    (u.run b).words.word k = b.words.word k := by
  have hword {a : Address} (hstart : b.covered.start ≤ a) (hstop : a < b.covered.stop) : b.bitOf a / mapWordBits < b.mapWords :=
    Nat.div_lt_of_lt_mul (Nat.mul_comm _ _ ▸ Nat.lt_of_lt_of_le (hb.bitOf_lt hstart hstop) hb.fits)
  cases u with
  | mark a | clear a => exact (word_modifyWord ..).trans (if_neg (by have := hword hu.1 hu.2; omega))
  | markRange start stop | clearRange start stop =>
    exact word_updateBits_of_le b _ (Nat.le_trans (b.bitOf_le hu.2.2) hb.fits) hk

/-- The words below `n` are the same. -/
def Below (n : Nat) (v w : Memory) : Prop := ∀ k < n, w.word k = v.word k

theorem Below.modifyWord {v w : Memory} (h : Below n v w) (i : Nat) (f : UInt64 → UInt64) :
    Below n (modifyWord v i f) (modifyWord w i f) := by
  intro k hk
  rw [word_modifyWord, word_modifyWord]
  split
  · next hi => rw [mapWord, mapWord, h i (hi ▸ hk)]
  · exact h k hk

theorem Below.fillWords {v w : Memory} (h : Below n v w) (i count x : Nat) :
    Below n (v.fillWords i count x) (w.fillWords i count x) := by
  intro k hk
  rw [Memory.word_fillWords, Memory.word_fillWords]
  split
  · rfl
  · exact h k hk

theorem Below.updateBits (h : Below n b.words c.words) (set : Bool) (lo hi : Nat) :
    Below n (b.updateBits set lo hi).words (c.updateBits set lo hi).words := by
  unfold Bitmap.updateBits
  split
  · exact h
  simp only
  split
  · exact h.modifyWord _ _
  · exact ((h.modifyWord _ _).fillWords _ _ _).modifyWord _ _

theorem SameMap.run (h : b.SameMap c) (u : Update) : (u.run b).SameMap (u.run c) := by
  have hrun := sameFrame_run b u
  have hbit := h.frame.bitOf_eq
  constructor
  case frame =>
    refine SameFrame.trans ?_ (h.frame.trans (sameFrame_run c u))
    exact ⟨hrun.1.symm, hrun.2.1.symm, hrun.2.2.1.symm, hrun.2.2.2.symm⟩
  case words =>
    rw [hrun.2.2.1]
    cases u with
    | mark a | clear a =>
      simp only [Update.run, mark, clear, hbit]
      exact Below.modifyWord h.words _ _
    | markRange start stop | clearRange start stop =>
      simp only [Update.run, markRange, clearRange, hbit]
      exact Below.updateBits h.words _ _ _

theorem SameMap.isMarked (h : b.SameMap c) (hb : b.Whole) (ha : b.covered.contains a = true) :
    c.isMarked a = b.isMarked a := by
  obtain ⟨hstart, hstop⟩ := Region.contains_iff.1 ha
  have hlt := Nat.lt_of_lt_of_le (hb.bitOf_lt hstart hstop) hb.fits
  have hword : b.bitOf a / mapWordBits < b.mapWords := Nat.div_lt_of_lt_mul (Nat.mul_comm _ _ ▸ hlt)
  rw [Bitmap.isMarked, Bitmap.isMarked, h.frame.bitOf_eq, testBit, testBit, mapWord, mapWord, h.words _ hword]

/-! ## Sequences of updates -/

theorem Exact.refl (hb : b.Whole) : b.Exact [] b where
  frame := ⟨rfl, rfl, rfl, rfl⟩
  members := rfl
  isMarked := b.isMarked_iff
  granules _ hi := .inl hi
  outside _ _ := rfl
  inside _ hd := hd
  answers _ hd _ ha := hd.isMarked hb ha

theorem exact_run (hb : b.Whole) (hu : u.Within b.covered) : b.Exact [u] (u.run b) where
  frame := sameFrame_run b u
  members := members_run b u
  isMarked a := by rw [isMarked_iff, members_run, (sameFrame_run b u).bitOf_eq]; rfl
  granules i hi := mem_onSet hb hu (members_run b u ▸ hi)
  outside _ hk := hb.word_run hu hk
  inside _ hd := hd.run u
  answers _ hd _ ha := hd.isMarked (hb.of_sameFrame (sameFrame_run b u)) ((sameFrame_run b u).1 ▸ ha)

theorem Exact.trans (h : b.Exact us c) (h' : c.Exact vs d) : b.Exact (us ++ vs) d where
  frame := h.frame.trans h'.frame
  members := by rw [h'.members, h.members, h.frame.bitOf_eq, List.foldl_append]
  isMarked a := by rw [h'.isMarked, h.members, h.frame.bitOf_eq, List.foldl_append]
  granules i hi := by
    rcases h'.granules i hi with hi | hi
    · exact h.granules i hi
    · exact .inr (by rwa [h.frame.1, h.frame.2.1] at hi)
  outside k hk := (h'.outside k (h.frame.2.2.1 ▸ hk)).trans (h.outside k hk)
  inside e he := by rw [List.foldl_append]; exact h'.inside _ (h.inside e he)
  answers e he a ha := h'.answers e he a (h.frame.1 ▸ ha)

theorem exact_of_whole : ∀ (us : List Update) {b : Bitmap}, b.Whole → (∀ u ∈ us, u.Within b.covered) →
    b.Exact us (us.foldl Update.run b)
  | [], _, hb, _ => .refl hb
  | u :: us, b, hb, hus => by
    have hframe := sameFrame_run b u
    have hstep := exact_run hb (hus u List.mem_cons_self)
    refine hstep.trans (exact_of_whole us (hb.of_sameFrame hframe) ?_)
    intro v hv
    rw [hframe.1]
    exact hus v (List.mem_cons_of_mem _ hv)

/-- **Updates of a bitmap over whole granules are exact set operations**, whatever the bitmap held before. -/
theorem exact_of_within {r : Region} {storage : BitmapStorage} {storageWords g : Nat} {b : Bitmap}
    (hb : ofStorage r storage storageWords g = .ok b) (hwhole : g ∣ r.byteSize) (words : Memory) (us : List Update)
    (hus : ∀ u ∈ us, u.Within r) :
    Exact { b with words } us (us.foldl Update.run { b with words }) := by
  obtain ⟨rfl, rfl, -, -, hfits⟩ := ofStorage_eq_ok hb
  exact exact_of_whole us ⟨hwhole, hfits⟩ hus

/-- Ranges over the border of two words, addresses inside a granule, a range whose ends are the wrong way round, and a
bit behind the last granule, which stays. -/
theorem exists_updates : ∃ b c : Bitmap, b.mapWords = 2 ∧ (List.range 128).filter b.testBit = [50, 127] ∧
    b.Exact [.markRange 4101 4888, .clearRange 4112 4880, .clearRange 4896 4096, .clear 4096, .mark 4895] c ∧
    (List.range 128).filter c.testBit = [1, 98, 99, 127] := by
  have hb : ofStorage ⟨4096, 4896⟩ ⟨4096, "map", true⟩ 2 8 = .ok ⟨⟨4096, 4896⟩, 8, 2, ⟨4096, "map", true⟩, .blank⟩ := rfl
  have hexact := exact_of_within hb (by decide) ((Memory.blank.setWord 0 (2 ^ 50)).setWord 1 (2 ^ 63))
    [.markRange 4101 4888, .clearRange 4112 4880, .clearRange 4896 4096, .clear 4096, .mark 4895] (by decide)
  exact ⟨_, _, rfl, by decide +kernel, hexact, by decide +kernel⟩

end Bitmap
end MarkSweep
