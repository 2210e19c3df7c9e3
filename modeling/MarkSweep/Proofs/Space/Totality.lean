import MarkSweep.Proofs.Space.Creation
import MarkSweep.Proofs.Space.Walk
/-!
# The walk is total

Headers and bits are not trusted: whatever they say, a walk makes at most one step for each granule of the space, and it
either divides the whole space into stretches or stops before the first object that claims more words than are left
(`Regular.walk_total`).
-/
namespace MarkSweep

/-- The stretches are not empty and lie side by side from `a` up to `b`. -/
def SideBySide : Address → List Extent → Address → Prop
  | a, [], b => a = b
  | a, e :: es, b => e.start = a ∧ 0 < e.words ∧ SideBySide (a + e.words * wordBytes) es b

instance : ∀ a es b, Decidable (SideBySide a es b)
  | a, [], b => inferInstanceAs (Decidable (a = b))
  | a, e :: es, b =>
    have := instDecidableSideBySide (a + e.words * wordBytes) es b
    inferInstanceAs (Decidable (e.start = a ∧ 0 < e.words ∧ SideBySide (a + e.words * wordBytes) es b))

namespace Space

variable {s : Space} {m : Memory}

/-- The memory and the bitmap attest a stretch.  It is made of whole granules.  A free one has all its bits set and ends
before a clear one or at the end of the space; an object starts at a clear bit, claims no more words than are left there,
and has its size, at least one word, rounded up. -/
def Attests (s : Space) (m : Memory) (e : Extent) : Prop :=
  s.granuleWords ∣ e.words ∧
  match e with
  | .free a n => (∀ b, a ≤ b → b < a + n * wordBytes → s.freeChunks.isMarked b = true) ∧
      (a + n * wordBytes = s.region.stop ∨ s.freeChunks.isMarked (a + n * wordBytes) = false)
  | .object a n => s.freeChunks.isMarked a = false ∧ Object.size m a ≤ (s.region.stop - a) / wordBytes ∧
      max (Object.size m a) 1 ≤ n ∧ n < max (Object.size m a) 1 + s.granuleWords

theorem Regular.isMarked_of_covers (h : s.Regular) {a : Address} {i : Nat} (h1 : s.address i ≤ a)
    (h2 : a < s.address (i + 1)) : s.freeChunks.isMarked a = s.freeChunks.testBit i := by
  rw [Bitmap.isMarked, h.bitOf_eq h.covered h.bit_bytes h1 h2]

theorem Meets.attests {t : Tile} (h : s.Meets m t) (hs : s.Regular) : s.Attests m (s.extent t) := by
  refine ⟨by rw [extent_words]; exact Nat.dvd_mul_left _ _, ?_⟩
  unfold extent
  by_cases hfree : t.IsFree
  · simp only [hfree, if_true]
    rw [address_add_words, ← Tile.stop]
    constructor
    · intro b hlo hhi
      obtain ⟨i, h1, h2⟩ := hs.exists_granule (Nat.le_trans (s.start_le_address _) hlo)
      have hfirst : t.first < i + 1 := hs.address_lt.1 (Nat.lt_of_le_of_lt hlo h2)
      have hstop : i < t.stop := hs.address_lt.1 (Nat.lt_of_le_of_lt h1 hhi)
      rw [hs.isMarked_of_covers h1 h2]
      exact h.bits hfree i ⟨Nat.lt_succ_iff.1 hfirst, hstop⟩
    · rcases Nat.eq_or_lt_of_le h.stop_le with hend | hlt
      · left
        rw [hend, hs.stop_eq]
      · right
        rw [hs.isMarked_address]
        exact h.bit_stop hfree hlt
  · have hround : t.count * s.granuleWords =
        (max (Object.size m (s.address t.first)) 1 + (s.granuleWords - 1)) / s.granuleWords * s.granuleWords := by
      rw [← h.headed hfree, granulesFor]
    simp only [hfree, if_false]
    rw [hs.isMarked_address, hs.stop_eq, words_between, hround]
    exact ⟨h.bit_first hfree, h.size_le hs hfree, le_roundUp hs.granule_pos, roundUp_lt hs.granule_pos⟩

theorem Regular.sideBySide (hs : s.Regular) : ∀ {ts : List Tile} {lo hi : Nat}, Tiling lo ts hi →
    SideBySide (s.address lo) (ts.map s.extent) (s.address hi)
  | [], lo, hi, h => congrArg s.address h
  | t :: ts, lo, hi, ⟨hfirst, hpos, hrest⟩ => by
    refine ⟨by rw [extent_start, hfirst], by rw [extent_words]; exact Nat.mul_pos hpos hs.granule_pos, ?_⟩
    rw [extent_words, ← hfirst, address_add_words]
    exact hs.sideBySide hrest

/-- **A walk is total.**  It meets stretches that lie side by side from the start of the space on, that the memory and the
bitmap attest, and that are no more than there are granules.  Nothing stops it and they reach to the end of the space,
or it stops with a fault behind them, where a clear bit says that there is an object and the object claims more words
than are left.  More steps than there are granules would find nothing else. -/
theorem Regular.walk_total (hs : s.Regular) (m : Memory) :
    ∃ last, SideBySide s.region.start (s.walk m).extents last ∧
      (∀ e ∈ (s.walk m).extents, s.Attests m e) ∧
      ((last = s.region.stop ∧ (s.walk m).fault = none ∧
          (s.walk m).extents.length ≤ s.region.wordSize / s.granuleWords) ∨
        (last < s.region.stop ∧ s.freeChunks.isMarked last = false ∧
          (s.region.stop - last) / wordBytes < Object.size m last ∧
          (s.walk m).fault = some (.objectPastEnd last (Object.size m last)) ∧
          (s.walk m).extents.length < s.region.wordSize / s.granuleWords)) ∧
      ∀ n, s.region.wordSize / s.granuleWords ≤ n → s.walkFrom m n s.region.start [] = s.walk m := by
  obtain ⟨ts, stop, htile, hts, hend⟩ := hs.walk_cases m
  have hside := hs.sideBySide htile
  have hattests : ∀ e ∈ ts.map s.extent, s.Attests m e :=
    List.forall_mem_map.2 fun t ht => (hts t ht).attests hs
  have hlen := htile.length_add_le
  rw [address_zero] at hside
  rcases hend with ⟨rfl, hwalk⟩ | ⟨hover, hwalk⟩
  · have hw : s.walk m = _ := hwalk _ (Nat.le_refl _)
    rw [hw]
    refine ⟨_, hside, hattests, .inl ⟨hs.stop_eq.symm, rfl, by rw [List.length_map]; exact hlen⟩, hwalk⟩
  · have hw : s.walk m = _ := hwalk _ (Nat.le_refl _)
    have hlt : stop < s.region.wordSize / s.granuleWords := hover.lt
    rw [hw]
    refine ⟨_, hside, hattests, .inr ⟨?_, ?_, ?_, rfl, by rw [List.length_map]; omega⟩, hwalk⟩
    · rw [hs.stop_eq]
      exact hs.address_lt.2 hover.lt
    · rw [hs.isMarked_address]
      exact hover.bit
    · rw [hs.stop_eq, words_between]
      exact hover.size

/-- A walk that meets an object of size zero and a stray bit, and stops before an object of five words where four are
left. -/
theorem exists_stopped_walk : ∃ (s : Space) (m : Memory) (last : Address), s.Regular ∧
    (s.walk m).extents = [.object 4096 2, .free 4112 2] ∧
    SideBySide s.region.start (s.walk m).extents last ∧ (∀ e ∈ (s.walk m).extents, s.Attests m e) ∧
    last < s.region.stop ∧ (s.walk m).fault = some (.objectPastEnd last 5) := by
  have hrun : (match create ⟨4096, 4160⟩ 2 true with
      | .ok s =>
        let s : Space := { s with list := s.list, freeChunks := { s.freeChunks with words := Memory.blank.setWord 0 2 } }
        let m := Object.format .blank 4128 5 0
        decide ((s.walk m).extents = [.object 4096 2, .free 4112 2] ∧
          (s.walk m).fault = some (.objectPastEnd 4128 5))
      | .error _ => false) = true := by decide +kernel
  split at hrun
  case h_2 => cases hrun
  next s hcreate =>
  obtain ⟨hextents, hfault⟩ := of_decide_eq_true hrun
  obtain ⟨-, -, -, htiled⟩ := create_spec hcreate (by decide) (by decide) (n := 4) (by decide)
  have hregular := htiled.toRegular.withBits s.list (Memory.blank.setWord 0 2)
  obtain ⟨last, hside, hattests, ⟨-, hnone, -⟩ | ⟨hlt, -, -, hover, -⟩, -⟩ :=
    hregular.walk_total (Object.format .blank 4128 5 0)
  · rw [hfault] at hnone
    cases hnone
  · rw [hfault] at hover
    cases hover
    exact ⟨_, _, _, hregular, hextents, hside, hattests, hlt, hfault⟩

end Space
end MarkSweep
