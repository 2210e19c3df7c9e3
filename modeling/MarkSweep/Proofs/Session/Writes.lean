import MarkSweep.Proofs.Session.Invariant
/-!
# Writes of the program keep the invariant of a session

A write changes words of one object alone (`Inv.rewrite`).  What it leaves in them differs: formatting leaves null
references (`Inv.format`), a store one that leads to an object (`Inv.store`), and other data is no reference (`Inv.poke`).
-/
namespace MarkSweep
namespace Layout

/-- The word that a store into reference `j` changes, counted from the start of the object. -/
def slotWord (l : Layout) (j : Nat) : Nat := if l.narrow then 1 + j / 2 else 1 + j

theorem slotWord_pos (l : Layout) (j : Nat) : 0 < l.slotWord j := by
  unfold slotWord
  split <;> omega

theorem slotWord_lt (l : Layout) {j : Nat} (hj : j < l.refs) : l.slotWord j < Object.leastWords l.refs l.narrow := by
  unfold slotWord Object.leastWords
  split <;> omega

theorem word_store (l : Layout) {obj : Nat} (hobj : wordBytes ∣ obj) (j target n : Nat) :
    ∃ g : Nat → Nat, ∀ (m : Memory) (i : Nat), (l.store obj j target n m).word i =
      if obj / wordBytes + l.slotWord j = i then g (m.word i) else m.word i := by
  have hstored (m : Memory) (a v i : Nat) (w : Nat) (ha : a / wordBytes = w) :
      (m.write a v).word i = if w = i then v else m.word i := by
    rw [Memory.write, Memory.word_setWord, ha]
  unfold store slotWord
  cases l.narrow with
  | true =>
    have hword : Object.narrowSlot obj j / wordBytes = obj / wordBytes + (1 + j / 2) := by
      unfold Object.narrowSlot wordBytes Address at *
      omega
    refine ⟨fun w => if Object.narrowSlot obj j % wordBytes < 4 then w / narrowLimit * narrowLimit + n
      else w % narrowLimit + n * narrowLimit, ?_⟩
    intro m i
    simp only [if_true]
    unfold Object.setNarrowRef Slot.writeHalf
    rw [hstored _ _ _ _ _ hword]
    by_cases hi : obj / wordBytes + (1 + j / 2) = i
    · rw [if_pos hi, if_pos hi, Memory.read, hword, hi]
    · rw [if_neg hi, if_neg hi]
  | false =>
    refine ⟨fun _ => target, ?_⟩
    intro m i
    simp only [Bool.false_eq_true, if_false]
    exact Object.word_setRef m obj j target i

end Layout

namespace Session

variable {s : Session} {ts : List Tile} {o : Grant} {l : Layout} {f : Memory → Memory}

theorem isObject_iff {a : Address} : s.IsObject a ↔ a ∈ s.objects.map (·.start) := by
  rw [List.mem_map]
  rfl

/-! ## One object is written to -/

namespace Inv

/-- **A write to one object keeps the invariant** if it keeps what holds of this object. -/
theorem rewrite (hi : s.Inv ts) (ho : o ∈ s.objects)
    (hbut : ∀ m : Memory, m.SameBut (f m) (o.start / wordBytes)
      (o.start / wordBytes + s.heap.space.granulesFor o.words * s.heap.space.granuleWords))
    {objects : List Grant} (hstarts : objects.map (·.start) = s.objects.map (·.start))
    (hothers : ∀ p ∈ objects, p.start ≠ o.start → p ∈ s.objects)
    (hself : ∀ p ∈ objects, p.start = o.start → p.words = o.words ∧ ({ s.write f with objects } : Session).Holds ts p) :
    ({ s.write f with objects } : Session).Inv ts := by
  have hs := hi.sound.mapped.tiled
  obtain ⟨k, hk, hstart⟩ := (hi.objects o ho).tile
  have hword : o.start / wordBytes = s.heap.space.wordAt k := by rw [hstart, hs.address_div_eq]
  rw [hword, ← Space.wordAt_add] at hbut
  have hobject : ({ s.write f with objects } : Session).IsObject = s.IsObject := by
    funext a
    rw [isObject_iff, isObject_iff]
    exact congrArg (a ∈ ·) hstarts
  obtain ⟨o', ho', hst⟩ : ∃ p ∈ objects, p.start = o.start := by
    have hmem : o.start ∈ objects.map (·.start) := hstarts ▸ List.mem_map_of_mem ho
    exact List.mem_map.1 hmem
  obtain ⟨hwords, hholds⟩ := hself o' ho' hst
  have hhead := hholds.headed hs.granule_pos (hst.trans hstart)
  simp only [hwords] at hhead
  refine ⟨hi.sound.step (hi.sound.mapped.overwrite hk (hbut _) hhead) ⟨.refl _, rfl, rfl, rfl, rfl, rfl, rfl, rfl, rfl⟩
    ⟨rfl, rfl, rfl, rfl⟩, hi.settled, ?_, ?_, ?_, hi.externals, hi.small⟩
  · intro p hp
    by_cases hne : p.start = o.start
    · exact (hself p hp hne).2
    · have hp' := hothers p hp hne
      have hold := hi.objects p hp'
      obtain ⟨i, hi', hstart'⟩ := hold.tile
      have hap := hi.apart ho hp' hne hstart hstart'
      have hkeep (m : Memory) : m.SameOn (f m) (s.heap.space.wordAt i)
          (s.heap.space.wordAt (i + s.heap.space.granulesFor p.words)) := by
        rcases hap with hap | hap
        · exact (hbut m).sameOn (.inr (s.heap.space.wordAt_mono hap))
        · exact (hbut m).sameOn (.inl (s.heap.space.wordAt_mono hap))
      refine hold.transport hs (.refl _) rfl (?_) (?_) (List.append_nil _).symm
        fun r hr => by cases hr
      · intro t ht hkind hst'
        have ht' := hs.tiling.eq_of_first ht hi' (hs.address_inj.1 (hst'.symm.trans hstart'))
        rw [ht']
        exact ⟨hi', hkeep _, hkeep _⟩
      · intro a hpt
        rw [hobject]
        exact hi.closed.pointsTo ⟨p, hp', rfl⟩ hpt
  · show (objects.map (·.start)).Nodup
    rw [hstarts]
    exact hi.distinct
  · rw [hobject]
    exact hi.roots

end Inv

theorem Holds.write (h : s.Holds ts o)
    (hhead : (f s.heap.memory).word (o.start / wordBytes) = s.heap.memory.word (o.start / wordBytes))
    (hslots : ∀ sl ∈ Object.slots s.heap.memory o.start, ∃ a, sl.load (f s.heap.memory) s.heap.encoding = .ok a ∧
      (a = 0 ∨ s.IsObject a))
    (hagree : ∀ j < o.words, (f s.heap.memory).word (o.start / wordBytes + j) = (f s.shadow).word (o.start / wordBytes + j)) :
    (s.write f).Holds ts o := by
  refine ⟨h.tile, ?_, h.fits, ?_, hagree, h.since, h.clear⟩
  · exact (Object.header_congr hhead).trans h.header
  · intro sl hsl
    simp only [Session.write] at hsl
    rw [Object.slots_congr hhead] at hsl
    exact hslots sl hsl

namespace Inv

theorem rewrite_self (hi : s.Inv ts) (ho : o ∈ s.objects)
    (hbut : ∀ m : Memory, m.SameBut (f m) (o.start / wordBytes)
      (o.start / wordBytes + s.heap.space.granulesFor o.words * s.heap.space.granuleWords))
    (hself : (s.write f).Holds ts o) : (s.write f).Inv ts := by
  refine hi.rewrite ho hbut rfl (fun p hp _ => hp) ?_
  intro p hp hst
  obtain rfl : p = o := List.inj_on_of_nodup_map hi.distinct hp ho hst
  exact ⟨rfl, hself⟩

/-! ## Formatting -/

/-- **Formatting an object.** -/
theorem format (hi : s.Inv ts) (ho : o ∈ s.objects) (hfits : l.Fits o.words) :
    ({ s.write (l.format o.start o.words) with objects := relaid s.objects o.start l } : Session).Inv ts := by
  have hs := hi.sound.mapped.tiled
  have hold := hi.objects o ho
  obtain ⟨k, hk, hstart⟩ := hold.tile
  have hdvd : wordBytes ∣ o.start := by rw [hstart]; exact hs.wordBytes_dvd_address k
  have hle := s.heap.space.words_le_granulesFor o.words hs.granule_pos
  have hlt : o.words < Header.sizeLimit := Nat.lt_of_le_of_lt hle (hi.words_lt hk)
  have hheader (m : Memory) : Object.header (l.format o.start o.words m) o.start = ⟨o.words, l.refs, l.flags⟩ := by
    rw [l.format_eq, Object.header_write, Nat.mod_eq_of_lt hlt, Nat.mod_eq_of_lt hfits.1, Nat.mod_eq_of_lt l.flags_lt]
  have hlink (m : Memory) : Object.linkWords (l.format o.start o.words m) o.start ≤ o.words := by
    unfold Object.linkWords Object.isFiller
    rw [hheader]
    simp only [Header.isFiller, Header.isNarrow, l.testBit_flags.1, l.testBit_flags.2, Bool.false_eq_true, if_false]
    exact hfits.2
  have hstarts : (relaid s.objects o.start l).map (·.start) = s.objects.map (·.start) := by
    unfold relaid
    rw [List.map_map]
    apply List.map_congr_left
    intro p _
    simp only [Function.comp]
    split <;> rfl
  refine hi.rewrite ho (?_) hstarts (?_) ?_
  · intro m
    rw [l.format_eq]
    exact Object.sameBut_write m _ _ (Nat.mul_pos (s.heap.space.granulesFor_pos _ hs.granule_pos) hs.granule_pos) hle
  · intro p hp hne
    obtain ⟨q, hq, rfl⟩ := List.mem_map.1 hp
    by_cases he : q.start = o.start
    · rw [if_pos he] at hne
      exact absurd he hne
    · rw [if_neg he]
      exact hq
  · intro p hp hst
    obtain ⟨q, hq, rfl⟩ := List.mem_map.1 hp
    have he : q.start = o.start := by
      by_cases he : q.start = o.start
      · exact he
      · rwa [if_neg he] at hst
    obtain rfl : q = o := List.inj_on_of_nodup_map hi.distinct hq ho he
    rw [if_pos rfl]
    refine ⟨rfl, ⟨k, hk, hstart⟩, hheader _, ?_, ?_, ?_, hold.since, hold.clear⟩
    · intro l' hl'
      cases hl'
      exact hfits
    · intro sl hsl
      have hlink' := hlink s.heap.memory
      simp only [Session.write, l.format_eq] at hsl hlink' ⊢
      exact ⟨0, Object.load_of_write hdvd hlink' _ hsl, .inl rfl⟩
    · intro j hj
      simp only [Session.write, l.format_eq]
      exact Object.word_write_eq _ _ _ _ _ hj

/-! ## Other data -/

theorem payload_pos (o : Grant) : 0 < o.payload := by
  unfold Grant.payload
  split
  · decide
  · exact Object.leastWords_pos _ _

/-- **Writing data behind the references of an object.** -/
theorem poke (hi : s.Inv ts) (ho : o ∈ s.objects) {j v : Nat} (hlow : o.payload ≤ j) (hhigh : j < o.words) :
    (s.write fun m => m.write (o.start + j * wordBytes) v).Inv ts := by
  have hs := hi.sound.mapped.tiled
  have hold := hi.objects o ho
  obtain ⟨k, -, hstart⟩ := hold.tile
  have hdvd : wordBytes ∣ o.start := by rw [hstart]; exact hs.wordBytes_dvd_address k
  have hle := s.heap.space.words_le_granulesFor o.words hs.granule_pos
  have hpos := payload_pos o
  have hword (m : Memory) (i : Nat) : (m.write (o.start + j * wordBytes) v).word i =
      if o.start / wordBytes + j = i then v else m.word i := by
    rw [Memory.write, Memory.word_setWord, div_add_mul]
  refine hi.rewrite_self ho (?_) (hold.write ?_ (?_) ?_)
  · intro m i hne
    have hnot : ¬o.start / wordBytes + j = i := by
      rintro rfl
      exact hne ⟨Nat.le_add_right _ _, Nat.add_lt_add_left (Nat.lt_of_lt_of_le hhigh hle) _⟩
    rw [hword, if_neg hnot]
  · rw [hword, if_neg (Nat.ne_of_gt (Nat.lt_add_of_pos_right (Nat.lt_of_lt_of_le hpos hlow)))]
  · intro sl hsl
    obtain ⟨a, ha, hobj⟩ := hold.slots sl hsl
    obtain ⟨-, h2⟩ := Object.slot_bounds hdvd hsl
    rw [hold.linkWords_eq] at h2
    refine ⟨a, ?_, hobj⟩
    rw [← ha]
    apply sl.load_congr _
    rw [hword, if_neg fun he => Nat.lt_irrefl _ (Nat.lt_of_lt_of_le (he ▸ h2) (Nat.add_le_add_left hlow _))]
  · intro i hi'
    rw [hword, hword, hold.words i hi']

/-! ## References -/

/-- Null and every object have a narrow reference. -/
theorem exists_encode (hi : s.Inv ts) {target : Nat} (hknown : target = 0 ∨ s.IsObject target) :
    ∃ n, s.heap.encoding.encode target = .ok n ∧ s.heap.encoding.decode n = .ok target ∧ n < narrowLimit := by
  have hs := hi.sound.mapped.tiled
  rcases hknown with rfl | ⟨p, hp, hpt⟩
  · exact ⟨0, rfl, rfl, by decide⟩
  · obtain ⟨k, hk, hstart⟩ := (hi.objects p hp).tile
    obtain rfl : target = s.heap.space.address k := hpt ▸ hstart
    have hlt := hs.first_lt hk
    have hsmall : k + 1 < narrowLimit := by
      refine Nat.lt_of_le_of_lt (Nat.succ_le_of_lt (Nat.lt_of_lt_of_le hlt ?_)) hi.small
      rw [hs.wordSize_eq]
      exact Nat.le_mul_of_pos_right _ hs.granule_pos
    refine ⟨k + 1, ?_, Heap.decode_succ hi.sound.framed hs.toRegular (Nat.le_of_lt hlt), hsmall⟩
    rw [Heap.encode_address hi.sound.framed hs.toRegular, if_pos hsmall]

/-- **Storing a reference to null or to an object.** -/
theorem store (hi : s.Inv ts) (ho : o ∈ s.objects) (hl : o.layout = some l) {j n target : Nat} (hj : j < l.refs)
    (hknown : target = 0 ∨ s.IsObject target) (hn : s.heap.encoding.encode target = .ok n) :
    (s.write (l.store o.start j target n)).Inv ts := by
  have hs := hi.sound.mapped.tiled
  have hold := hi.objects o ho
  obtain ⟨k, -, hstart⟩ := hold.tile
  obtain ⟨n', hn', hdecode, hlimit⟩ := hi.exists_encode hknown
  cases hn'.symm.trans hn
  have hdvd : wordBytes ∣ o.start := by rw [hstart]; exact hs.wordBytes_dvd_address k
  have hle := s.heap.space.words_le_granulesFor o.words hs.granule_pos
  have hin : l.slotWord j < o.words := Nat.lt_of_lt_of_le (l.slotWord_lt hj) (hold.fits l hl).2
  obtain ⟨g, hg⟩ := l.word_store hdvd j target n
  have hheader := hold.header
  rw [headerOf, hl] at hheader
  refine hi.rewrite_self ho (?_) (hold.write ?_ (?_) ?_)
  · intro m i hne
    have hnot : ¬o.start / wordBytes + l.slotWord j = i := by
      rintro rfl
      exact hne ⟨Nat.le_add_right _ _, Nat.add_lt_add_left (Nat.lt_of_lt_of_le hin hle) _⟩
    rw [hg, if_neg hnot]
  · rw [hg, if_neg (Nat.ne_of_gt (Nat.lt_add_of_pos_right (l.slotWord_pos j)))]
  · intro sl hsl
    obtain ⟨a, ha, hobj⟩ := hold.slots sl hsl
    obtain ⟨-, i, -, rfl⟩ := Object.mem_slots.1 hsl
    have hnarrow : (Object.header s.heap.memory o.start).isNarrow = l.narrow := by
      rw [hheader]
      exact l.testBit_flags.2
    rw [hnarrow] at ha ⊢
    unfold Layout.store
    cases hwidth : l.narrow with
    | true =>
      simp only [hwidth, if_true] at ha ⊢
      rw [Object.load_setNarrowRef _ hdvd _ _ hlimit, hdecode]
      by_cases hij : j = i
      · exact ⟨target, if_pos hij, hknown⟩
      · exact ⟨a, (if_neg hij).trans ha, hobj⟩
    | false =>
      simp only [hwidth, Bool.false_eq_true, if_false] at ha ⊢
      rw [Object.load_setRef]
      by_cases hij : j = i
      · exact ⟨target, if_pos hij, hknown⟩
      · exact ⟨a, (if_neg hij).trans ha, hobj⟩
  · intro i hi'
    rw [hg, hg, hold.words i hi']

/-- **A store is what the heap's own operation does**, whichever width the object has. -/
theorem setRef_eq (hi : s.Inv ts) (ho : o ∈ s.objects) (hl : o.layout = some l) {j n target : Nat}
    (hn : s.heap.encoding.encode target = .ok n) :
    (Heap.setRef o.start j target).run s.heap = .ok () (s.write (l.store o.start j target n)).heap := by
  have hheader := (hi.objects o ho).header
  rw [headerOf, hl] at hheader
  have hnarrow : (Object.header s.heap.memory o.start).isNarrow = l.narrow := by
    rw [hheader]
    exact l.testBit_flags.2
  unfold Heap.setRef
  simp only [EStateM.run_bind, EStateM.run_get, hnarrow, write, Layout.store]
  cases l.narrow with
  | true => simp only [if_true, EStateM.run_bind, hn, run_lift_ok, EStateM.run_set]
  | false => simp only [Bool.false_eq_true, if_false, EStateM.run_set]

end Inv
end Session
end MarkSweep
