import MarkSweep.Proofs.Heap.Allocation
import MarkSweep.Proofs.NarrowReferences
import MarkSweep.Proofs.Session
/-!
# What holds of every session

Every object lies in a tile of its own and holds what was last written to it (`Holds`), every reference leads to an
object, and what was handed out since an object was granted lies apart from it.  `Session.Inv` is the invariant; the
lemmas here carry it over what heap operations and writes have in common.
-/
namespace MarkSweep

theorem Header.isFiller_fillerFlag (size refs : Nat) : Header.isFiller ⟨size, refs, Header.fillerFlag⟩ = true := by
  show Nat.testBit 1 0 = true
  decide

namespace Object

theorem load_of_write {m : Memory} {obj words refs flags : Nat} (hobj : wordBytes ∣ obj)
    (hlink : linkWords (write m obj words refs flags) obj ≤ words) (e : NarrowEncoding) {sl : Slot}
    (hsl : sl ∈ slots (write m obj words refs flags) obj) : sl.load (write m obj words refs flags) e = .ok 0 := by
  obtain ⟨h1, h2⟩ := slot_bounds hobj hsl
  have hzero : (write m obj words refs flags).word (sl.address / wordBytes) = 0 := by
    rw [word_write, if_neg (Nat.ne_of_gt h1), if_pos ⟨h1, Nat.lt_of_lt_of_le h2 (Nat.add_le_add_left hlink _)⟩]
  rw [Slot.load_eq, Slot.content_of_zero hzero]
  cases sl <;> rfl

end Object

theorem Mapped.overwrite {s : Space} {m m' : Memory} {r : TlabRegistry} {ts : List Tile} {t : Tile} (h : Mapped s m r ts)
    (ht : t ∈ ts) (hm : m.SameBut m' (s.wordAt t.first) (s.wordAt t.stop)) (hhead : s.Headed m' t) : Mapped s m' r ts :=
  ⟨h.tiled, fun u hu hk => by
    by_cases he : u = t
    · exact he ▸ hhead
    · exact (h.headed u hu hk).congr h.tiled.toRegular (h.tiled.count_pos hu) (sameOn_of_ne h.tiled ht hm hu he),
    h.buffers, h.countable⟩

namespace Layout

theorem format_eq (l : Layout) (obj : Address) (words : Nat) (m : Memory) :
    l.format obj words m = Object.write m obj words l.refs l.flags := by
  unfold format flags
  split <;> rfl

theorem flags_lt (l : Layout) : l.flags < Header.refsLimit := by
  unfold flags
  split <;> decide

theorem testBit_flags (l : Layout) : l.flags.testBit 0 = false ∧ l.flags.testBit 1 = l.narrow := by
  unfold flags
  cases l.narrow <;> decide

end Layout

namespace Session

variable {s s' : Session} {ts ts' : List Tile} {o : Grant}

/-! ## Objects -/

/-- The header of an object, as it was written. -/
def headerOf (s : Session) (o : Grant) : Header :=
  match o.layout with
  | none => ⟨s.heap.space.granulesFor o.words * s.heap.space.granuleWords, 0, Header.fillerFlag⟩
  | some l => ⟨o.words, l.refs, l.flags⟩

/-- A range lies apart from an object. -/
def Clear (s : Session) (o : Grant) (r : Region) : Prop := r.stop ≤ o.start ∨ o.start + s.extent o.words ≤ r.start

/-- **What holds of an object.** -/
structure Holds (s : Session) (ts : List Tile) (o : Grant) : Prop where
  tile : ∃ k, (⟨.object, k, s.heap.space.granulesFor o.words⟩ : Tile) ∈ ts ∧ o.start = s.heap.space.address k
  header : Object.header s.heap.memory o.start = s.headerOf o
  fits : ∀ l, o.layout = some l → l.Fits o.words
  slots : ∀ sl ∈ Object.slots s.heap.memory o.start, ∃ a, sl.load s.heap.memory s.heap.encoding = .ok a ∧
    (a = 0 ∨ s.IsObject a)
  words : ∀ j < o.words, s.heap.memory.word (o.start / wordBytes + j) = s.shadow.word (o.start / wordBytes + j)
  since : o.since ≤ s.handed.length
  clear : ∀ r ∈ s.handed.drop o.since, s.Clear o r

/-- **The invariant of a session.** -/
structure Inv (s : Session) (ts : List Tile) : Prop where
  sound : s.heap.Sound ts
  settled : Settled ts
  objects : ∀ o ∈ s.objects, s.Holds ts o
  distinct : (s.objects.map (·.start)).Nodup
  roots : s.heap.Rooted s.IsObject
  externals : ∀ id ∈ s.externals, id ∈ s.heap.tlabs.registered ∧ ∀ m ∈ s.heap.mutators, m.tlab ≠ id
  small : s.heap.space.region.wordSize < Header.sizeLimit

theorem linkWords_of_header {m : Memory} (h : Object.header m o.start = s.headerOf o) :
    Object.linkWords m o.start = o.payload := by
  unfold Object.linkWords Object.isFiller Grant.payload
  rw [h]
  unfold headerOf
  cases o.layout with
  | none => rw [if_pos (Header.isFiller_fillerFlag _ _)]
  | some l => simp only [Header.isFiller, Header.isNarrow, l.testBit_flags.1, l.testBit_flags.2, Bool.false_eq_true, if_false]

theorem size_headerOf (s : Session) (o : Grant) (hg : 0 < s.heap.space.granuleWords) :
    s.heap.space.granulesFor (s.headerOf o).size = s.heap.space.granulesFor o.words := by
  unfold headerOf
  cases o.layout with
  | none => exact s.heap.space.granulesFor_mul hg (s.heap.space.granulesFor_pos _ hg)
  | some l => rfl

namespace Holds

theorem linkWords_eq (h : s.Holds ts o) : Object.linkWords s.heap.memory o.start = o.payload :=
  linkWords_of_header h.header

theorem payload_le (h : s.Holds ts o) (hg : 0 < s.heap.space.granuleWords) :
    o.payload ≤ s.heap.space.granulesFor o.words * s.heap.space.granuleWords := by
  have hpos := Nat.mul_pos (s.heap.space.granulesFor_pos o.words hg) hg
  unfold Grant.payload
  cases hl : o.layout with
  | none => exact hpos
  | some l => exact Nat.le_trans (h.fits l hl).2 (s.heap.space.words_le_granulesFor o.words hg)

theorem linkWords_le (h : s.Holds ts o) (hg : 0 < s.heap.space.granuleWords) :
    Object.linkWords s.heap.memory o.start ≤ s.heap.space.granulesFor o.words * s.heap.space.granuleWords := by
  rw [h.linkWords_eq]
  exact h.payload_le hg

theorem headed (h : s.Holds ts o) (hg : 0 < s.heap.space.granuleWords) {k : Nat} (hk : o.start = s.heap.space.address k) :
    s.heap.space.Headed s.heap.memory ⟨.object, k, s.heap.space.granulesFor o.words⟩ := by
  unfold Space.Headed Object.size
  rw [← hk, h.header]
  exact s.size_headerOf o hg

theorem stop_eq {k : Nat} (hk : o.start = s.heap.space.address k) :
    o.start + s.extent o.words = s.heap.space.address (k + s.heap.space.granulesFor o.words) := by
  rw [hk, extent, Space.address_add]

theorem clear_of_apart (h : s.Holds ts o) (hs : s.heap.space.Regular) {k n : Nat} (ha : Apart ts k n) :
    s.Clear o ⟨s.heap.space.address k, s.heap.space.address (k + n)⟩ := by
  obtain ⟨i, hi, hstart⟩ := h.tile
  unfold Clear
  rw [stop_eq hstart, hstart]
  rcases ha _ hi rfl with hap | hap
  · exact .inr (hs.address_le.2 hap)
  · exact .inl (hs.address_le.2 hap)

theorem transport (h : s.Holds ts o) (hs : s.heap.space.Tiled ts) (hg : s.heap.space.SameGrid s'.heap.space)
    (he : s'.heap.encoding = s.heap.encoding)
    (hkeep : ∀ t ∈ ts, t.kind = .object → o.start = s.heap.space.address t.first →
      t ∈ ts' ∧ s.heap.memory.SameOn s'.heap.memory (s.heap.space.wordAt t.first) (s.heap.space.wordAt t.stop) ∧
        s.shadow.SameOn s'.shadow (s.heap.space.wordAt t.first) (s.heap.space.wordAt t.stop))
    (htarget : ∀ a, PointsTo s.heap.memory s.heap.encoding o.start a → s'.IsObject a) {new : List Region}
    (hhanded : s'.handed = s.handed ++ new) (hnew : ∀ r ∈ new, s.Clear o r) : s'.Holds ts' o := by
  obtain ⟨k, hk, hstart⟩ := h.tile
  obtain ⟨hk', hm, hsh⟩ := hkeep _ hk rfl hstart
  have hword : o.start / wordBytes = s.heap.space.wordAt k := by rw [hstart, hs.address_div_eq]
  have hstop : s.heap.space.wordAt (k + s.heap.space.granulesFor o.words) =
      s.heap.space.wordAt k + s.heap.space.granulesFor o.words * s.heap.space.granuleWords := s.heap.space.wordAt_add _ _
  simp only [Tile.stop, hstop] at hm hsh
  have hpos := Nat.mul_pos (s.heap.space.granulesFor_pos o.words hs.granule_pos) hs.granule_pos
  have hfirst : s'.heap.memory.word (o.start / wordBytes) = s.heap.memory.word (o.start / wordBytes) := by
    rw [hword]
    exact hm _ (Nat.le_refl _) (Nat.lt_add_of_pos_right hpos)
  have hextent (n : Nat) : s'.extent n = s.extent n := by rw [extent, extent, hg.granulesFor, hg.granuleBytes]
  have hdvd : wordBytes ∣ o.start := by rw [hstart]; exact hs.wordBytes_dvd_address k
  refine ⟨⟨k, by rw [hg.granulesFor]; exact hk', by rw [hstart, hg.address]⟩, ?_, h.fits, ?_, ?_,
    ?_, ?_⟩
  · rw [Object.header_congr hfirst, h.header]
    unfold headerOf
    rw [hg.granulesFor, hg.2]
  · intro sl hsl
    rw [Object.slots_congr hfirst] at hsl
    obtain ⟨a, ha, hobj⟩ := h.slots sl hsl
    obtain ⟨h1, h2⟩ := Object.slot_bounds hdvd hsl
    have hle := h.linkWords_le hs.granule_pos
    rw [hword] at h1 h2
    refine ⟨a, ?_, ?_⟩
    · rw [he, sl.load_congr _ (hm _ (Nat.le_of_lt h1) (Nat.lt_of_lt_of_le h2 (Nat.add_le_add_left hle _))), ha]
    · by_cases ha0 : a = 0
      · exact .inl ha0
      · exact .inr (htarget a ⟨ha0, sl, hsl, ha⟩)
  · intro j hj
    have hle := s.heap.space.words_le_granulesFor o.words hs.granule_pos
    rw [hword]
    rw [hm _ (Nat.le_add_right _ _) (by omega), hsh _ (Nat.le_add_right _ _) (by omega), ← hword]
    exact h.words j hj
  · rw [hhanded, List.length_append]
    exact Nat.le_trans h.since (Nat.le_add_right _ _)
  · intro r hr
    rw [hhanded, List.drop_append_of_le_length h.since, List.mem_append] at hr
    unfold Clear
    rw [hextent]
    exact hr.elim (h.clear r) (hnew r)

/-- The object is a matter of the memory and of what the session knows, not of who holds it. -/
theorem congr (h : s.Holds ts o) (hspace : s'.heap.space = s.heap.space) (hmemory : s'.heap.memory = s.heap.memory)
    (hencoding : s'.heap.encoding = s.heap.encoding) (hobjects : s'.objects = s.objects) (hshadow : s'.shadow = s.shadow)
    (hhanded : s'.handed = s.handed) : s'.Holds ts o := by
  obtain ⟨htile, hheader, hfits, hslots, hwords, hsince, hclear⟩ := h
  constructor
  case tile => rwa [hspace]
  case header =>
    unfold headerOf at hheader ⊢
    rwa [hspace, hmemory]
  case fits => exact hfits
  case slots =>
    unfold IsObject at hslots ⊢
    rwa [hmemory, hencoding, hobjects]
  case words => rwa [hmemory, hshadow]
  case since => rwa [hhanded]
  case clear =>
    unfold Clear extent at hclear ⊢
    rwa [hhanded, hspace]

end Holds

namespace Inv

/-- A header has a place for the words of any tile. -/
theorem words_lt (h : s.Inv ts) {t : Tile} (ht : t ∈ ts) : t.count * s.heap.space.granuleWords < Header.sizeLimit := by
  have hs := h.sound.mapped.tiled
  refine Nat.lt_of_le_of_lt ?_ h.small
  rw [hs.wordSize_eq]
  exact Nat.mul_le_mul_right _ (Nat.le_trans (Nat.le_add_left _ _) (hs.stop_le ht))

theorem countable (h : s.Inv ts) (words : Nat) : s.heap.space.Countable words :=
  h.sound.mapped.tiled.countable h.sound.framed.nonempty h.small words

/-- Only roots, mutators or what the system grants differ. -/
theorem withHeap {h' : Heap} (hi : s.Inv ts) (hs : h'.Sound ts) (hspace : h'.space = s.heap.space)
    (hmemory : h'.memory = s.heap.memory) (hencoding : h'.encoding = s.heap.encoding) (hroots : h'.Rooted s.IsObject)
    (hext : ∀ id ∈ s.externals, id ∈ h'.tlabs.registered ∧ ∀ m ∈ h'.mutators, m.tlab ≠ id) :
    ({ s with heap := h' } : Session).Inv ts :=
  ⟨hs, hi.settled, fun o ho => (hi.objects o ho).congr hspace hmemory hencoding rfl rfl rfl, hi.distinct, hroots, hext,
    by rw [hspace]; exact hi.small⟩

theorem withExternals (hi : s.Inv ts) (ids : List TlabId)
    (h : ∀ id ∈ ids, id ∈ s.heap.tlabs.registered ∧ ∀ m ∈ s.heap.mutators, m.tlab ≠ id) :
    ({ s with externals := ids } : Session).Inv ts :=
  ⟨hi.sound, hi.settled, fun o ho => (hi.objects o ho).congr rfl rfl rfl rfl rfl rfl, hi.distinct, hi.roots, h, hi.small⟩

theorem closed (h : s.Inv ts) : Heap.Closed s.heap.space s.heap.memory s.heap.encoding ts s.IsObject := by
  have hg := h.sound.mapped.tiled.granule_pos
  constructor
  · rintro x ⟨o, ho, rfl⟩
    obtain ⟨k, hk, hstart⟩ := (h.objects o ho).tile
    exact ⟨_, hk, rfl, hstart, (h.objects o ho).linkWords_le hg⟩
  · rintro x ⟨o, ho, rfl⟩ sl hsl
    exact (h.objects o ho).slots sl hsl

theorem apart (h : s.Inv ts) {o p : Grant} (ho : o ∈ s.objects) (hp : p ∈ s.objects) (hne : p.start ≠ o.start) {i k : Nat}
    (hi : o.start = s.heap.space.address i) (hk : p.start = s.heap.space.address k) :
    k + s.heap.space.granulesFor p.words ≤ i ∨ i + s.heap.space.granulesFor o.words ≤ k := by
  obtain ⟨i', hi', hstart⟩ := (h.objects o ho).tile
  obtain ⟨k', hk', hstart'⟩ := (h.objects p hp).tile
  have hs := h.sound.mapped.tiled
  obtain rfl : i = i' := hs.address_inj.1 (hi.symm.trans hstart)
  obtain rfl : k = k' := hs.address_inj.1 (hk.symm.trans hstart')
  refine hs.tiling.apart hk' hi' fun he => hne ?_
  injection he with _ hfirst
  rw [hi, hk, hfirst]

end Inv
end Session
end MarkSweep
