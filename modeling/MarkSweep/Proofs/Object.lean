import MarkSweep.Marking
/-!
# Objects and the words around them

A write to an object changes words of the object alone, and what an object says (its header, its slots and what they
refer to) depends on its own words alone.
-/
namespace MarkSweep

namespace Memory

/-- The words from number `lo` up to, but not including, `hi` are the same. -/
def SameOn (m m' : Memory) (lo hi : Nat) : Prop := ∀ i, lo ≤ i → i < hi → m'.word i = m.word i

/-- All words are the same but those from number `lo` up to, but not including, `hi`. -/
def SameBut (m m' : Memory) (lo hi : Nat) : Prop := ∀ i, ¬(lo ≤ i ∧ i < hi) → m'.word i = m.word i

variable {m m' m'' : Memory} {lo hi : Nat}

theorem SameOn.refl (m : Memory) (lo hi : Nat) : m.SameOn m lo hi := fun _ _ _ => rfl

theorem SameOn.trans (h : m.SameOn m' lo hi) (h' : m'.SameOn m'' lo hi) : m.SameOn m'' lo hi :=
  fun i h1 h2 => (h' i h1 h2).trans (h i h1 h2)

theorem SameOn.mono {lo' hi' : Nat} (h : m.SameOn m' lo hi) (hlo : lo ≤ lo') (hhi : hi' ≤ hi) : m.SameOn m' lo' hi' :=
  fun i h1 h2 => h i (Nat.le_trans hlo h1) (Nat.lt_of_lt_of_le h2 hhi)

theorem SameBut.trans (h : m.SameBut m' lo hi) (h' : m'.SameBut m'' lo hi) : m.SameBut m'' lo hi :=
  fun i hi => (h' i hi).trans (h i hi)

theorem SameBut.sameOn {lo' hi' : Nat} (h : m.SameBut m' lo hi) (hap : hi ≤ lo' ∨ hi' ≤ lo) : m.SameOn m' lo' hi' :=
  fun i h1 h2 => h i (by omega)

end Memory

theorem div_add_mul (a n : Nat) : (a + n * wordBytes) / wordBytes = a / wordBytes + n := by
  rw [Nat.add_mul_div_right _ _ (by decide)]

namespace Slot

/-- What a slot holds: an address, or a narrow reference. -/
def content (m : Memory) : Slot → Nat
  | wide a => m.read a
  | narrow a => readHalf m a

theorem load_eq (m : Memory) (e : NarrowEncoding) (s : Slot) :
    s.load m e = if s.isWide then .ok (s.content m) else e.decode (s.content m) := by
  cases s <;> rfl

theorem content_of_zero {m : Memory} {s : Slot} (h : m.word (s.address / wordBytes) = 0) : s.content m = 0 := by
  cases s with
  | wide a => exact h
  | narrow a =>
    have hread : m.read a = 0 := h
    simp only [content, readHalf, hread, Nat.zero_mod, Nat.zero_div, ite_self]

theorem load_congr {m m' : Memory} (e : NarrowEncoding) (s : Slot)
    (h : m'.word (s.address / wordBytes) = m.word (s.address / wordBytes)) : s.load m' e = s.load m e := by
  cases s with
  | wide a => exact congrArg Except.ok h
  | narrow a =>
    have hread : m'.read a = m.read a := h
    simp only [load, readHalf, hread]

theorem readHalf_writeHalf (m : Memory) {a c : Nat} (ha : 4 ∣ a) (hc : 4 ∣ c) {n : Nat} (hn : n < narrowLimit) :
    readHalf (writeHalf m a n) c = if a = c then n else readHalf m c := by
  unfold readHalf writeHalf Memory.read Memory.write
  rw [Memory.word_setWord]
  unfold narrowLimit wordBytes Address at *
  generalize hw : m.word (a / 8) = w
  by_cases hwords : a / 8 = c / 8
  · rw [if_pos hwords, ← hwords, hw]
    by_cases h1 : a % 8 < 4 <;> by_cases h2 : c % 8 < 4
    · rw [if_pos h1, if_pos h2, if_pos h2, if_pos (by omega)]
      omega
    · rw [if_pos h1, if_neg h2, if_neg h2, if_neg (by omega)]
      omega
    · rw [if_neg h1, if_pos h2, if_pos h2, if_neg (by omega)]
      omega
    · rw [if_neg h1, if_neg h2, if_neg h2, if_pos (by omega)]
      omega
  · have hne : ¬a = c := fun he => hwords (by rw [he])
    rw [if_neg hwords, if_neg hne]

end Slot

namespace Object

variable {m m' : Memory} {obj : Nat}

/-! ## Formatting -/

/-- Every word after an object was written. -/
theorem word_write (m : Memory) (obj words refs flags i : Nat) :
    (write m obj words refs flags).word i =
      if i = obj / wordBytes then Header.encode ⟨words, refs, flags⟩
      else if obj / wordBytes < i ∧ i < obj / wordBytes + words then 0 else m.word i := by
  have hnext : (obj + wordBytes) / wordBytes = obj / wordBytes + 1 := Nat.add_div_right _ (by decide)
  unfold write Memory.zero Memory.write
  rw [Memory.word_fillWords, Memory.word_setWord, hnext]
  by_cases h1 : i = obj / wordBytes
  · rw [if_pos h1, if_neg (by omega), if_pos h1.symm]
  · have h1' : ¬obj / wordBytes = i := fun h => h1 h.symm
    rw [if_neg h1, if_neg h1']
    by_cases h2 : obj / wordBytes < i ∧ i < obj / wordBytes + words
    · rw [if_pos h2, if_pos (by omega)]
    · rw [if_neg h2, if_neg (by omega)]

theorem word_write_eq (m m' : Memory) (obj refs flags : Nat) {words j : Nat} (hj : j < words) :
    (write m obj words refs flags).word (obj / wordBytes + j) = (write m' obj words refs flags).word (obj / wordBytes + j) := by
  rw [word_write, word_write]
  by_cases hz : obj / wordBytes + j = obj / wordBytes
  · rw [if_pos hz, if_pos hz]
  · rw [if_neg hz, if_neg hz, if_pos (by omega), if_pos (by omega)]

theorem sameBut_write (m : Memory) {words n : Nat} (refs flags : Nat) (hn : 0 < n)
    (hle : words ≤ n) : m.SameBut (write m obj words refs flags) (obj / wordBytes) (obj / wordBytes + n) := by
  intro i hi
  rw [word_write, if_neg (by omega), if_neg (by omega)]

theorem header_write (m : Memory) (obj words refs flags : Nat) :
    header (write m obj words refs flags) obj =
      ⟨words % Header.sizeLimit, refs % Header.refsLimit, flags % Header.refsLimit⟩ := by
  rw [header, Memory.read, word_write, if_pos rfl, Header.decode_encode]

theorem header_congr (h : m'.word (obj / wordBytes) = m.word (obj / wordBytes)) : header m' obj = header m obj :=
  congrArg Header.decode h

theorem slots_congr (h : m'.word (obj / wordBytes) = m.word (obj / wordBytes)) : slots m' obj = slots m obj := by
  unfold slots
  rw [header_congr h]

/-! ## Slots -/

/-- The words that hold the header and the references of an object. -/
def linkWords (m : Memory) (obj : Address) : Nat :=
  if isFiller m obj then 1 else leastWords (header m obj).refs (header m obj).isNarrow

theorem leastWords_pos (refs : Nat) (narrow : Bool) : 0 < leastWords refs narrow := by
  unfold leastWords
  split <;> omega

theorem linkWords_pos (m : Memory) (obj : Address) : 0 < linkWords m obj := by
  unfold linkWords
  split
  · decide
  · exact leastWords_pos _ _

theorem mem_slots {s : Slot} : s ∈ slots m obj ↔ isFiller m obj = false ∧ ∃ i < (header m obj).refs,
    s = if (header m obj).isNarrow then .narrow (narrowSlot obj i) else .wide (wideSlot obj i) := by
  unfold slots isFiller
  simp only
  split
  · next h => simp [h]
  · next h =>
    simp only [List.mem_map, List.mem_range, Bool.not_eq_true] at h ⊢
    constructor
    · rintro ⟨i, hi, rfl⟩
      exact ⟨h, i, hi, rfl⟩
    · rintro ⟨-, i, hi, rfl⟩
      exact ⟨i, hi, rfl⟩

/-- The slots of an object lie behind its header, among its first words. -/
theorem slot_bounds (hobj : wordBytes ∣ obj) {s : Slot} (hs : s ∈ slots m obj) :
    obj / wordBytes < s.address / wordBytes ∧ s.address / wordBytes < obj / wordBytes + linkWords m obj := by
  obtain ⟨hf, i, hi, rfl⟩ := mem_slots.1 hs
  unfold linkWords leastWords
  rw [hf, if_neg Bool.false_ne_true]
  unfold wordBytes Address at *
  cases (header m obj).isNarrow
  · simp only [Bool.false_eq_true, if_false, Slot.address, wideSlot, wordBytes]
    omega
  · simp only [if_true, Slot.address, narrowSlot, wordBytes]
    omega

/-- What an object refers to depends on its header and its references alone. -/
theorem pointsTo_congr {e : NarrowEncoding} (hobj : wordBytes ∣ obj)
    (h : m.SameOn m' (obj / wordBytes) (obj / wordBytes + linkWords m obj)) (y : Address) :
    PointsTo m' e obj y ↔ PointsTo m e obj y := by
  have hpos := linkWords_pos m obj
  have hslots : slots m' obj = slots m obj := slots_congr (h _ (Nat.le_refl _) (by omega))
  have hload {s : Slot} (hs : s ∈ slots m obj) : s.load m' e = s.load m e := by
    obtain ⟨h1, h2⟩ := slot_bounds hobj hs
    exact s.load_congr e (h _ (Nat.le_of_lt h1) h2)
  unfold PointsTo
  rw [hslots]
  constructor
  · rintro ⟨hne, s, hs, hl⟩
    exact ⟨hne, s, hs, by rwa [hload hs] at hl⟩
  · rintro ⟨hne, s, hs, hl⟩
    exact ⟨hne, s, hs, by rwa [hload hs]⟩

/-! ## Stores -/

theorem word_setRef (m : Memory) (obj i target j : Nat) :
    (setRef m obj i target).word j = if obj / wordBytes + (1 + i) = j then target else m.word j := by
  rw [setRef, wideSlot, Memory.write, Memory.word_setWord, div_add_mul]

theorem content_setRef (m : Memory) (obj i j target : Nat) :
    Slot.content (setRef m obj i target) (.wide (wideSlot obj j)) =
      if i = j then target else Slot.content m (.wide (wideSlot obj j)) := by
  simp only [Slot.content, Memory.read, word_setRef, wideSlot, div_add_mul, Nat.add_left_cancel_iff]

theorem content_setNarrowRef (m : Memory) (hobj : wordBytes ∣ obj) (i j : Nat) {n : Nat} (hn : n < narrowLimit) :
    Slot.content (setNarrowRef m obj i n) (.narrow (narrowSlot obj j)) =
      if i = j then n else Slot.content m (.narrow (narrowSlot obj j)) := by
  have h4 (k : Nat) : 4 ∣ narrowSlot obj k := by
    unfold narrowSlot wordBytes Address at *
    omega
  have hslot : (narrowSlot obj i = narrowSlot obj j) = (i = j) := by
    unfold narrowSlot Address
    apply propext
    omega
  simp only [Slot.content, setNarrowRef, Slot.readHalf_writeHalf m (h4 i) (h4 j) hn, hslot]

theorem load_setRef (e : NarrowEncoding) (i j : Nat) (target : Address) :
    Slot.load (setRef m obj i target) e (.wide (wideSlot obj j)) =
      if i = j then .ok target else Slot.load m e (.wide (wideSlot obj j)) := by
  simp only [Slot.load_eq, Slot.isWide, if_true, content_setRef, apply_ite Except.ok]

theorem load_setNarrowRef (e : NarrowEncoding) (hobj : wordBytes ∣ obj) (i j : Nat) {n : Nat} (hn : n < narrowLimit) :
    Slot.load (setNarrowRef m obj i n) e (.narrow (narrowSlot obj j)) =
      if i = j then e.decode n else Slot.load m e (.narrow (narrowSlot obj j)) := by
  simp only [Slot.load_eq, Slot.isWide, Bool.false_eq_true, if_false, content_setNarrowRef m hobj i j hn, apply_ite e.decode]

end Object

end MarkSweep
