import MarkSweep.Proofs.Session.Steps
/-!
# Reachable objects are never reused

An object that every cycle finds reachable stays in the session (`Step.keeps`), and the invariant says what this is worth:
its words are what the program wrote, none of it is free, and nothing handed out since touches it (`Reached.intact`).
-/
namespace MarkSweep
namespace Session

variable {s s' s'' : Session} {o : Grant} {a : Address}

/-- A step in which no cycle completes, or one that finds `a` reachable. -/
def Finds (s : Session) (a : Address) (s' : Session) : Prop :=
  s'.heap.collections = s.heap.collections ∨ s.heap.Live a

/-- A run from `s` on in which every cycle that completes finds `a` reachable. -/
inductive Sustains (s : Session) (a : Address) : Session → Prop
  | refl : Sustains s a s
  | step {s' s'' : Session} (run : Sustains s a s') (next : s'.Step s'') (finds : s'.Finds a s'') : Sustains s a s''

/-- Object `o` was granted and has not been reclaimed. -/
def Has (s : Session) (o : Grant) : Prop := ∃ p ∈ s.objects, p.start = o.start ∧ p.words = o.words ∧ p.since = o.since

/-- **What a program may rely on**: its object is as it left it, and belongs to it alone. -/
structure Intact (s : Session) (o : Grant) : Prop where
  has : s.Has o
  words : ∀ j < o.words, s.heap.memory.word (o.start / wordBytes + j) = s.shadow.word (o.start / wordBytes + j)
  used : ∀ a, o.start ≤ a → a < o.start + s.extent o.words → s.heap.isFree a = false
  chunks : ∀ c ∈ s.heap.chunks, s.Clear o ⟨c.start, c.start + c.words * wordBytes⟩
  handed : ∀ r ∈ s.handed.drop o.since, s.Clear o r

/-! ## Objects stay in the session -/

theorem mem_left {h h' : Heap} {objects : List Grant} (ho : o ∈ objects)
    (hf : h'.collections = h.collections ∨ h.Live o.start) : o ∈ left h h' objects := by
  by_cases hc : h'.collections = h.collections
  · rwa [left_of_eq hc]
  · exact (mem_left_of_ne hc).2 ⟨ho, hf.resolve_left hc⟩

/-- **A step keeps an object** unless it completes a cycle that finds it unreachable. -/
theorem Step.keeps (hn : s.Step s') (ho : s.Has o) (hf : s.Finds o.start s') : s'.Has o := by
  obtain ⟨p, hp, hstart, hrest⟩ := ho
  rw [← hstart] at hf
  cases hn with
  | allocate | allocateIn | allocateFor => exact ⟨p, List.mem_append_left _ (mem_left hp hf), hstart, hrest⟩
  | allocateRefused | newTlab | newTlabRefused | allocateInRefused | dropTlab | newMutator | allocateForRefused | dropMutator
  | collect | collectFull | iterate => exact ⟨p, mem_left hp hf, hstart, hrest⟩
  | store | poke | reroot | hold | permit => exact ⟨p, hp, hstart, hrest⟩
  | @format q l mem fits =>
    refine ⟨_, List.mem_map_of_mem hp, ?_⟩
    split
    · exact ⟨hstart, hrest⟩
    · exact ⟨hstart, hrest⟩

theorem Sustains.keeps (hr : s.Sustains o.start s') (ho : s.Has o) : s'.Has o := by
  induction hr with
  | refl => exact ho
  | step _ next finds ih => exact next.keeps ih finds

theorem Sustains.reached (hr : s.Sustains a s') (h : Reached s) : Reached s' := by
  induction hr with
  | refl => exact h
  | step _ next _ ih => exact ih.step next

/-! ## Objects of a session are intact -/

namespace Inv

variable {ts : List Tile}

theorem isFree_eq_false (hi : s.Inv ts) (ho : o ∈ s.objects) (h1 : o.start ≤ a) (h2 : a < o.start + s.extent o.words) :
    s.heap.isFree a = false := by
  have hs := hi.sound.mapped.tiled
  obtain ⟨k, hk, hstart⟩ := (hi.objects o ho).tile
  rw [Holds.stop_eq hstart] at h2
  rw [hstart] at h1
  obtain ⟨i, hi1, hi2⟩ := hs.exists_granule (Nat.le_trans (s.heap.space.start_le_address k) h1)
  have hcov : Tile.Covers ⟨.object, k, s.heap.space.granulesFor o.words⟩ i := by
    constructor
    · exact Nat.le_of_lt_succ (hs.address_lt.1 (Nat.lt_of_le_of_lt h1 hi2))
    · exact hs.address_lt.1 (Nat.lt_of_le_of_lt hi1 h2)
  have hbit := hs.bits _ hk i hcov
  unfold Heap.isFree Space.isFreeChunk Bitmap.isMarked
  rw [hs.bitOf_eq hs.covered hs.bit_bytes hi1 hi2, hbit, decide_eq_false (by rintro ⟨⟩), Bool.and_false]

theorem clear_of_chunk (hi : s.Inv ts) (ho : o ∈ s.objects) {c : Chunk} (hc : c ∈ s.heap.chunks) :
    s.Clear o ⟨c.start, c.start + c.words * wordBytes⟩ := by
  have hs := hi.sound.mapped.tiled
  have hchunks : s.heap.chunks = (freeTiles ts).map s.heap.space.chunk := hs.list.chunks
  rw [hchunks] at hc
  obtain ⟨t, ht, rfl⟩ := List.mem_map.1 hc
  obtain ⟨hmem, hfree⟩ := mem_freeTiles.1 ht
  have hap : Apart ts t.first t.count := fun u hu hk =>
    hs.tiling.apart hu hmem fun he => by rw [he, show t.kind = .free from hfree] at hk; cases hk
  have hclear := (hi.objects o ho).clear_of_apart hs.toRegular hap
  rwa [← s.heap.space.address_add_words] at hclear

theorem intact (hi : s.Inv ts) (ho : s.Has o) : s.Intact o := by
  obtain ⟨p, hp, hstart, hwords, hsince⟩ := ho
  have hholds := hi.objects p hp
  constructor
  case has => exact ⟨p, hp, hstart, hwords, hsince⟩
  case words =>
    rw [← hstart, ← hwords]
    exact hholds.words
  case used =>
    rw [← hstart, ← hwords]
    exact fun a h1 h2 => hi.isFree_eq_false hp h1 h2
  case chunks =>
    intro c hc
    unfold Clear
    rw [← hstart, ← hwords]
    exact hi.clear_of_chunk hp hc
  case handed =>
    intro r hr
    unfold Clear
    rw [← hsince] at hr
    rw [← hstart, ← hwords]
    exact hholds.clear r hr

end Inv

/-- **No live memory is reused or damaged**: an object of a session is intact after any run whose cycles find it
reachable. -/
theorem Reached.preserves_live (h : Reached s) (ho : o ∈ s.objects) (hr : s.Sustains o.start s') : s'.Intact o := by
  obtain ⟨ts, hi⟩ := (hr.reached h).inv
  exact hi.intact (hr.keeps ⟨o, ho, rfl, rfl, rfl⟩)

/-- A run with a cycle that finds an object. -/
theorem exists_preserved : ∃ (s s' : Session) (o : Grant), Reached s ∧ o ∈ s.objects ∧ s.Sustains o.start s' ∧
    s'.heap.collections ≠ s.heap.collections ∧ s'.Intact o := by
  obtain ⟨s, s', h, hn, hne, o, ho, hlive⟩ := exists_cycle
  have hr : s.Sustains o.start s' := .step .refl hn (.inr hlive)
  exact ⟨s, s', o, h, ho, hr, hne, h.preserves_live ho hr⟩

end Session
end MarkSweep
