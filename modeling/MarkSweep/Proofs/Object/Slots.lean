import MarkSweep.Proofs.Session.Writes
/-!
# Reference slots — an object holds what was last put into its references

The words behind the header of an object are places of the width of its references, two to a word in a narrow object.
A put changes one place and nothing beside it, also where another place lies in the same word (`Laid.put`).  So after a
format and any puts every reference holds what was last put into it, and all else in the object is null
(`puts_stored`).
-/
namespace MarkSweep

/-- The bytes a slot takes. -/
def Slot.bytes : Slot → Nat
  | .wide _ => wordBytes
  | .narrow _ => 4

namespace Layout

/-- Place `i` behind the header of an object; its references have the first places. -/
def slot (l : Layout) (obj : Address) (i : Nat) : Slot :=
  if l.narrow then .narrow (Object.narrowSlot obj i) else .wide (Object.wideSlot obj i)

/-- The places in an object of `words` words. -/
def room (l : Layout) (words : Nat) : Nat := if l.narrow then 2 * (words - 1) else words - 1

/-- One past the largest number that a place holds. -/
def limit (l : Layout) : Nat := if l.narrow then narrowLimit else addressLimit

/-- Puts a number into a reference: an address into a wide one, a narrow reference into a narrow one. -/
def put (l : Layout) (obj : Address) (m : Memory) (p : Nat × Nat) : Memory := l.store obj p.1 p.2 p.2 m

/-- What was last put into reference `i`, null if nothing was. -/
def lastPut (puts : List (Nat × Nat)) (i : Nat) : Nat := ((puts.reverse.find? (·.1 == i)).map (·.2)).getD 0

/-- The address that a number in a reference stands for. -/
def target (l : Layout) (e : NarrowEncoding) (n : Nat) : Except Fault Address := if l.narrow then e.decode n else .ok n

/-- What an object holds, place by place: its header, `held` in its places, and around it what was there before. -/
structure Laid (l : Layout) (obj : Address) (words : Nat) (before m : Memory) (held : Nat → Nat) : Prop where
  header : Object.header m obj = ⟨words, l.refs, l.flags⟩
  places : ∀ i < l.room words, (l.slot obj i).content m = held i
  outside : before.SameBut m (obj / wordBytes) (obj / wordBytes + words)

/-- **An object that was formatted and then had `puts` put into its references**, in memory that was `before`. -/
structure Stored (l : Layout) (obj : Address) (words : Nat) (before m : Memory) (puts : List (Nat × Nat)) : Prop where
  header : Object.header m obj = ⟨words, l.refs, l.flags⟩
  kind : Object.isFiller m obj = false ∧ (Object.header m obj).isNarrow = l.narrow
  count : (Object.slots m obj).length = l.refs
  width : ∀ s ∈ Object.slots m obj, s.isWide = !l.narrow
  inside : ∀ s ∈ Object.slots m obj, obj + wordBytes ≤ s.address ∧ s.address + s.bytes ≤ obj + words * wordBytes
  /-- The slots come in the order of their addresses, and none reaches into the next. -/
  apart : (Object.slots m obj).Pairwise fun s t => s.address + s.bytes ≤ t.address
  /-- The slot in place `i` loads what was last put into reference `i`. -/
  loads : ∀ i < l.refs, ∃ s, (Object.slots m obj)[i]? = some s ∧ ∀ e, s.load m e = l.target e (lastPut puts i)
  /-- So does a direct look into a wide reference. -/
  reads : l.narrow = false → ∀ i < l.refs, Object.getRef m obj i = lastPut puts i
  rest : ∀ k, Object.leastWords l.refs l.narrow ≤ k → k < words → m.word (obj / wordBytes + k) = 0
  /-- The half of a word behind an odd number of narrow references is null too. -/
  half : l.narrow = true → l.refs % 2 = 1 → Slot.readHalf m (Object.narrowSlot obj l.refs) = 0
  outside : ∀ i, ¬(obj / wordBytes ≤ i ∧ i < obj / wordBytes + words) → m.word i = before.word i

variable {l : Layout} {obj words i j : Nat} {before m : Memory} {held : Nat → Nat} {puts : List (Nat × Nat)}

/-! ## Places -/

theorem lastPut_concat (puts : List (Nat × Nat)) (p : Nat × Nat) :
    lastPut (puts ++ [p]) = Function.update (lastPut puts) p.1 p.2 := by
  funext i
  rw [lastPut, List.reverse_concat, List.find?_cons]
  by_cases h : p.1 = i
  · subst h
    rw [Function.update_self]
    simp
  · rw [Function.update_of_ne (Ne.symm h), beq_false_of_ne h]
    rfl

theorem refs_le_room (hfits : l.Fits words) : l.refs ≤ l.room words := by
  have hleast := hfits.2
  unfold Object.leastWords at hleast
  unfold room
  cases hnarrow : l.narrow <;> simp only [hnarrow, Bool.false_eq_true, if_false, if_true] at hleast ⊢ <;> omega

/-- The word of a place lies behind the header. -/
theorem slotWord_bounds (hi : i < l.room words) : 0 < l.slotWord i ∧ l.slotWord i < words := by
  unfold room at hi
  unfold slotWord
  cases hnarrow : l.narrow <;> simp only [hnarrow, Bool.false_eq_true, if_false, if_true] at hi ⊢ <;> omega

theorem address_slot (hobj : wordBytes ∣ obj) (i : Nat) :
    (l.slot obj i).address / wordBytes = obj / wordBytes + l.slotWord i := by
  unfold slot slotWord
  cases l.narrow with
  | true =>
    simp only [if_true, Slot.address]
    unfold Object.narrowSlot wordBytes Address at *
    omega
  | false =>
    simp only [Bool.false_eq_true, if_false, Slot.address]
    rw [Object.wideSlot, div_add_mul]

/-- **A put changes one place**, and not the other one in the same word. -/
theorem content_put (hobj : wordBytes ∣ obj) (m : Memory) {v : Nat} (hv : v < l.limit) (i j : Nat) :
    (l.slot obj j).content (l.put obj m (i, v)) = if i = j then v else (l.slot obj j).content m := by
  unfold limit at hv
  unfold slot put store
  cases hnarrow : l.narrow with
  | true =>
    rw [hnarrow, if_pos rfl] at hv
    simp only [if_true]
    exact Object.content_setNarrowRef m hobj i j hv
  | false =>
    simp only [Bool.false_eq_true, if_false]
    exact Object.content_setRef m obj i j v

/-! ## Formats and puts -/

theorem laid_format (hobj : wordBytes ∣ obj) (hfits : l.Fits words) (hwords : words < Header.sizeLimit) (m : Memory) :
    l.Laid obj words m (l.format obj words m) fun _ => 0 := by
  have hpos : 0 < words := Nat.lt_of_lt_of_le (Object.leastWords_pos _ _) hfits.2
  constructor
  case header =>
    rw [l.format_eq, Object.header_write, Nat.mod_eq_of_lt hwords, Nat.mod_eq_of_lt hfits.1, Nat.mod_eq_of_lt l.flags_lt]
  case places =>
    intro i hi
    obtain ⟨h1, h2⟩ := slotWord_bounds hi
    apply Slot.content_of_zero
    rw [address_slot hobj, l.format_eq, Object.word_write, if_neg (by omega), if_pos (by omega)]
  case outside =>
    rw [l.format_eq]
    exact Object.sameBut_write m _ _ hpos (Nat.le_refl _)

namespace Laid

theorem put (h : l.Laid obj words before m held) (hobj : wordBytes ∣ obj) (hi : i < l.room words) {v : Nat}
    (hv : v < l.limit) : l.Laid obj words before (l.put obj m (i, v)) (Function.update held i v) := by
  obtain ⟨hpos, hlt⟩ := slotWord_bounds hi
  obtain ⟨g, hg⟩ := l.word_store hobj i v v
  constructor
  case header =>
    rw [← h.header]
    apply Object.header_congr
    rw [Layout.put, hg, if_neg (by omega)]
  case places =>
    intro j hj
    rw [content_put hobj m hv, h.places j hj, Function.update_apply]
    simp only [eq_comm]
  case outside =>
    refine h.outside.trans fun k hk => ?_
    rw [Layout.put, hg, if_neg (by omega)]

/-- **After any puts each place holds what was last put into it.** -/
theorem putAll (h : l.Laid obj words before m fun _ => 0) (hobj : wordBytes ∣ obj) (puts : List (Nat × Nat))
    (hputs : ∀ p ∈ puts, p.1 < l.room words ∧ p.2 < l.limit) :
    l.Laid obj words before (puts.foldl (l.put obj) m) (lastPut puts) := by
  induction puts using List.reverseRecOn with
  | nil => exact h
  | append_singleton puts p ih =>
    obtain ⟨hi, hv⟩ := hputs p (by simp)
    rw [List.foldl_concat, lastPut_concat]
    exact (ih fun q hq => hputs q (by simp [hq])).put hobj hi hv

/-! ## What the object says -/

theorem kind (h : l.Laid obj words before m held) :
    Object.isFiller m obj = false ∧ (Object.header m obj).isNarrow = l.narrow := by
  unfold Object.isFiller Header.isFiller Header.isNarrow
  rw [h.header]
  exact l.testBit_flags

theorem slots_eq (h : l.Laid obj words before m held) : Object.slots m obj = (List.range l.refs).map (l.slot obj) := by
  obtain ⟨hfiller, hnarrow⟩ := h.kind
  unfold Object.isFiller at hfiller
  unfold Object.slots
  simp only [hfiller, hnarrow, Bool.false_eq_true, if_false]
  rw [h.header]
  rfl

/-- A word is null if the places in it are. -/
theorem word_eq_zero (h : l.Laid obj words before m held) (hobj : wordBytes ∣ obj) {k : Nat} (hpos : 0 < k)
    (hk : k < words) (hzero : ∀ i, l.slotWord i = k → held i = 0) : m.word (obj / wordBytes + k) = 0 := by
  cases hnarrow : l.narrow with
  | false =>
    have hword : l.slotWord (k - 1) = k := by
      simp only [slotWord, hnarrow, Bool.false_eq_true, if_false]
      omega
    have hplace := h.places (k - 1) (by simp only [room, hnarrow, Bool.false_eq_true, if_false]; omega)
    rw [hzero _ hword] at hplace
    have haddress := address_slot (l := l) hobj (k - 1)
    simp only [slot, hnarrow, Bool.false_eq_true, if_false, Slot.content, Slot.address, Memory.read] at hplace haddress
    rwa [haddress, hword] at hplace
  | true =>
    -- the two halves of the word are places
    have hhalf (i : Nat) (hi : i < 2) : Slot.readHalf m (Object.narrowSlot obj (2 * (k - 1) + i)) = 0 := by
      have hplace := h.places (2 * (k - 1) + i) (by simp only [room, hnarrow, if_true]; omega)
      rw [hzero _ (by simp only [slotWord, hnarrow, if_true]; omega)] at hplace
      simpa only [slot, hnarrow, if_true, Slot.content] using hplace
    have hlow := hhalf 0 (by decide)
    have hhigh := hhalf 1 (by decide)
    have hword (i : Nat) (hi : i < 2) : Object.narrowSlot obj (2 * (k - 1) + i) / wordBytes = obj / wordBytes + k ∧
        Object.narrowSlot obj (2 * (k - 1) + i) % wordBytes = 4 * i := by
      unfold Object.narrowSlot wordBytes Address at *
      omega
    simp only [Slot.readHalf, Memory.read, (hword 0 (by decide)).1, (hword 0 (by decide)).2, (hword 1 (by decide)).1,
      (hword 1 (by decide)).2] at hlow hhigh
    rw [if_pos (by decide)] at hlow
    rw [if_neg (by decide)] at hhigh
    rw [← Nat.div_add_mod (m.word (obj / wordBytes + k)) narrowLimit, hlow, hhigh, Nat.mul_zero]

end Laid

/-! ## Slots -/

/-- Places lie behind one another. -/
theorem slot_apart (hij : i < j) : (l.slot obj i).address + (l.slot obj i).bytes ≤ (l.slot obj j).address := by
  unfold slot
  cases l.narrow with
  | true =>
    simp only [if_true, Slot.address, Slot.bytes]
    unfold Object.narrowSlot Address
    omega
  | false =>
    simp only [Bool.false_eq_true, if_false, Slot.address, Slot.bytes]
    unfold Object.wideSlot wordBytes Address
    omega

theorem slot_inside (hi : i < l.room words) :
    obj + wordBytes ≤ (l.slot obj i).address ∧ (l.slot obj i).address + (l.slot obj i).bytes ≤ obj + words * wordBytes := by
  unfold room at hi
  unfold slot
  cases hnarrow : l.narrow with
  | true =>
    simp only [hnarrow, if_true] at hi
    simp only [if_true, Slot.address, Slot.bytes]
    unfold Object.narrowSlot wordBytes Address
    omega
  | false =>
    simp only [hnarrow, Bool.false_eq_true, if_false] at hi
    simp only [Bool.false_eq_true, if_false, Slot.address, Slot.bytes]
    unfold Object.wideSlot wordBytes Address
    omega

theorem isWide_slot (l : Layout) (obj : Address) (i : Nat) : (l.slot obj i).isWide = !l.narrow := by
  unfold slot
  cases l.narrow <;> rfl

theorem load_slot (m : Memory) (e : NarrowEncoding) (i : Nat) :
    (l.slot obj i).load m e = l.target e ((l.slot obj i).content m) := by
  rw [Slot.load_eq, isWide_slot, target]
  cases l.narrow <;> rfl

theorem lastPut_of_le {n : Nat} (hputs : ∀ p ∈ puts, p.1 < n) (hi : n ≤ i) : lastPut puts i = 0 := by
  have hnone : puts.reverse.find? (·.1 == i) = none := by
    rw [List.find?_eq_none]
    intro p hp
    have := hputs p (List.mem_reverse.1 hp)
    simp only [beq_iff_eq]
    omega
  rw [lastPut, hnone]
  rfl

/-- **An object holds what was last put into its references**, in memory that held anything before it was formatted. -/
theorem puts_stored (l : Layout) (hobj : wordBytes ∣ obj) (hfits : l.Fits words) (hwords : words < Header.sizeLimit)
    (m : Memory) (puts : List (Nat × Nat)) (hputs : ∀ p ∈ puts, p.1 < l.refs ∧ p.2 < l.limit) :
    l.Stored obj words m (puts.foldl (l.put obj) (l.format obj words m)) puts := by
  have hroom := refs_le_room hfits
  have hlaid := (laid_format hobj hfits hwords m).putAll hobj puts fun p hp =>
    ⟨Nat.lt_of_lt_of_le (hputs p hp).1 hroom, (hputs p hp).2⟩
  have hempty {i : Nat} (hi : l.refs ≤ i) : lastPut puts i = 0 := lastPut_of_le (fun p hp => (hputs p hp).1) hi
  have hplace {s : Slot} (hs : s ∈ (List.range l.refs).map (l.slot obj)) : ∃ i < l.refs, l.slot obj i = s := by
    simpa only [List.mem_map, List.mem_range] using hs
  have hslots := hlaid.slots_eq
  constructor
  case header => exact hlaid.header
  case kind => exact hlaid.kind
  case count => rw [hslots, List.length_map, List.length_range]
  case width =>
    intro s hs
    obtain ⟨i, -, rfl⟩ := hplace (hslots ▸ hs)
    exact isWide_slot l obj i
  case inside =>
    intro s hs
    obtain ⟨i, hi, rfl⟩ := hplace (hslots ▸ hs)
    exact slot_inside (Nat.lt_of_lt_of_le hi hroom)
  case apart =>
    rw [hslots, List.pairwise_map]
    exact List.pairwise_lt_range.imp slot_apart
  case loads =>
    intro i hi
    refine ⟨l.slot obj i, by rw [hslots, List.getElem?_map, List.getElem?_range hi]; rfl, fun e => ?_⟩
    rw [load_slot, hlaid.places i (Nat.lt_of_lt_of_le hi hroom)]
  case reads =>
    intro hnarrow i hi
    have hcontent := hlaid.places i (Nat.lt_of_lt_of_le hi hroom)
    simp only [slot, hnarrow, Bool.false_eq_true, if_false, Slot.content] at hcontent
    exact hcontent
  case rest =>
    intro k hk hlt
    refine hlaid.word_eq_zero hobj (Nat.lt_of_lt_of_le (Object.leastWords_pos _ _) hk) hlt fun i hi => hempty ?_
    -- a place in a word behind the references is none of them
    refine Nat.le_of_not_lt fun hi' => Nat.lt_irrefl _ (Nat.lt_of_lt_of_le ?_ hk)
    exact hi ▸ l.slotWord_lt hi'
  case half =>
    intro hnarrow hodd
    have hfree : l.refs < l.room words := by
      have hleast := hfits.2
      simp only [Object.leastWords, hnarrow, if_true] at hleast
      simp only [room, hnarrow, if_true]
      omega
    have hcontent := hlaid.places l.refs hfree
    rw [hempty (Nat.le_refl _)] at hcontent
    simpa only [slot, hnarrow, if_true, Slot.content] using hcontent
  case outside => exact hlaid.outside

/-- Three narrow references in memory full of ones: the first is overwritten, and the last has half a word. -/
theorem exists_stored : ∃ m : Memory, m.word 513 = 18446744073709551615 ∧
    let l : Layout := ⟨3, true⟩
    let puts := [(0, 7), (2, 9), (1, 4294967295), (0, 5)]
    l.Stored 4096 4 m (puts.foldl (l.put 4096) (l.format 4096 4 m)) puts ∧ lastPut puts 0 = 5 := by
  refine ⟨Memory.blank.fillWords 511 6 18446744073709551615, by decide, ?_, by decide⟩
  exact puts_stored ⟨3, true⟩ (by decide) ⟨by decide, by decide⟩ (by decide) _ _ (by decide)

end Layout
end MarkSweep
