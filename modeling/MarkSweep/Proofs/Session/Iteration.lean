import MarkSweep.Proofs.Roots
import MarkSweep.Proofs.Session.Parsability
/-!
# A walk over the objects is a faithful view

A walk stops the world and retires every buffer, so it is not a question that changes nothing.  `Heap.Walked` says what it
finds and all that it changes: it finds each extent once, in address order, and leaves nothing behind but empty buffers,
fillers over the words they did not grant, and one more epoch.  After that there is nothing left to change, so a second
walk finds the same (`Reached.iterate_faithful`).
-/
namespace MarkSweep

namespace TlabRegistry

theorem set_get (r : TlabRegistry) (id : TlabId) : r.set id (r.get id) = r :=
  congrArg (TlabRegistry.mk · r.registered) (Roots.setIfInBounds_self r.buffers id .empty)

theorem retire_of_isEmpty {r : TlabRegistry} {id : TlabId} (h : (r.get id).isEmpty = true) (m : Memory) :
    r.retire m id = (0, m, r) := by
  unfold retire Tlab.retire
  simp only [h, if_true, set_get]

/-- Retiring buffers that are all empty changes nothing. -/
theorem retireAll_of_isEmpty {r : TlabRegistry} (h : ∀ id, (r.get id).isEmpty = true) (m : Memory) :
    r.retireAll m = (0, m, r) := by
  unfold retireAll
  generalize r.registered = ids
  induction ids with
  | nil => rfl
  | cons id ids ih =>
    rw [List.foldl_cons]
    simp only [retire_of_isEmpty (h id) m]
    exact ih

end TlabRegistry

theorem Space.Regular.wordAt_mul {s : Space} (h : s.Regular) (k : Nat) : s.wordAt k * wordBytes = s.address k := by
  rw [← h.address_div_eq, Nat.div_mul_cancel (h.wordBytes_dvd_address k)]

namespace Heap

/-- **What a walk over `h` finds and what it leaves**: `objects` are the starts of the extents in use and of the tails of
buffers, `h'` is `h` with all buffers retired. -/
structure Walked (h : Heap) (objects : List Address) (h' : Heap) : Prop where
  ascending : objects.Pairwise (· < ·)
  extents : ∃ ts, h.Divided ts ∧ h'.Divided (ts.map (Tile.retired h.tlabs.registered)) ∧
    objects = (usedTiles ts).map fun t => h.space.address t.first
  used : ∀ a ∈ objects, h.isFree a = false ∧ ∀ c ∈ h.chunks, a < c.start ∨ c.start + c.words * wordBytes ≤ a
  registered : h'.tlabs.registered = h.tlabs.registered
  buffers : ∀ id, h'.tlabs.get id = if id ∈ h.tlabs.registered then (h.tlabs.get id).emptied else h.tlabs.get id
  empty : ∀ id ∈ h.tlabs.registered, (h'.tlabs.get id).isEmpty = true
  words : ∀ i, h'.memory.word i ≠ h.memory.word i → ∃ id ∈ h.tlabs.registered,
    (h.tlabs.get id).top ≤ i * wordBytes ∧ i * wordBytes < (h.tlabs.get id).stop
  rest : h' = { h with
    memory := h'.memory
    tlabs := h'.tlabs
    safepoint := { h.safepoint with epoch := h.safepoint.epoch + 1 } }

variable {h h' : Heap} {ts : List Tile} {t : Tile} {P : Address → Prop} {id : Option MutatorId}

/-! ## Tiles in use and free chunks -/

theorem isFree_of_used (hs : h.space.Tiled ts) (ht : t ∈ usedTiles ts) : h.isFree (h.space.address t.first) = false := by
  obtain ⟨hmem, hfree⟩ := mem_usedTiles.1 ht
  unfold Heap.isFree Space.isFreeChunk
  rw [hs.isMarked_address, hs.bits t hmem _ (Tiling.covers_first (hs.count_pos hmem)), decide_eq_false hfree, Bool.and_false]

theorem outside_of_used (hs : h.space.Tiled ts) (ht : t ∈ usedTiles ts) {c : Chunk} (hc : c ∈ h.chunks) :
    h.space.address t.first < c.start ∨ c.start + c.words * wordBytes ≤ h.space.address t.first := by
  have hchunks : h.chunks = (freeTiles ts).map h.space.chunk := hs.list.chunks
  rw [hchunks] at hc
  obtain ⟨u, hu, rfl⟩ := List.mem_map.1 hc
  obtain ⟨hmem, hfree⟩ := mem_usedTiles.1 ht
  obtain ⟨hmem', hfree'⟩ := mem_freeTiles.1 hu
  simp only [Space.chunk]
  rw [h.space.address_add_words, hs.address_lt, hs.address_le]
  have hpos := hs.count_pos hmem
  rcases hs.tiling.apart hmem hmem' fun he => hfree (he ▸ hfree') with hap | hap
  · left
    unfold Tile.stop at hap
    omega
  · exact .inr hap

/-! ## Walks -/

/-- The words of a tail are the words its buffer did not grant. -/
theorem tail_words (hm : Mapped h.space h.memory h.tlabs ts) {id : TlabId} {k n i : Nat} (ht : (⟨.tail id, k, n⟩ : Tile) ∈ ts)
    (hi : h.space.wordAt k ≤ i ∧ i < h.space.wordAt (k + n)) :
    (h.tlabs.get id).top ≤ i * wordBytes ∧ i * wordBytes < (h.tlabs.get id).stop := by
  obtain ⟨-, -, -, -, htop, hstop⟩ := (mem_tail_iff hm id k n).1 ht
  rw [htop, hstop, ← hm.tiled.wordAt_mul, ← hm.tiled.wordAt_mul]
  exact ⟨Nat.mul_le_mul_right _ hi.1, Nat.mul_lt_mul_of_pos_right hi.2 (by decide)⟩

theorem Sound.walk_finds (hs : h.Sound ts) (hset : Settled ts) :
    h.Walked ((usedTiles ts).map fun t => h.space.address t.first) h.walked := by
  have ht := hs.mapped.tiled
  have hret := hs.retired
  constructor
  case ascending => exact ht.starts_ascending
  case extents => exact ⟨ts, hs.divided hset, hs.walked.divided (hset.retired _), rfl⟩
  case used =>
    intro a ha
    obtain ⟨t, hmem, rfl⟩ := List.mem_map.1 ha
    exact ⟨isFree_of_used ht hmem, fun c hc => outside_of_used ht hmem hc⟩
  case registered => exact hret.registered
  case buffers => exact hret.buffers
  case empty => exact fun id hid => hret.isEmpty hid
  case words =>
    intro i hne
    obtain ⟨id, hid, k, n, htail, hi⟩ := hret.words i hne
    exact ⟨id, hid, tail_words hs.mapped htail hi⟩
  case rest => rfl

/-- **After a walk there is nothing left to change.** -/
theorem Sound.walked_walked (hs : h.Sound ts) :
    h.walked.walked = { h.walked with safepoint := { h.walked.safepoint with epoch := h.walked.safepoint.epoch + 1 } } := by
  have hempty := TlabRegistry.retireAll_of_isEmpty hs.retired.all_empty h.walked.memory
  generalize h.walked = h' at hempty ⊢
  rw [Heap.walked, hempty]

end Heap

namespace Session

variable {s : Session} {id : Option MutatorId}

/-- **A walk is a faithful view of the heap.**  Whoever asks for it, it comes to its end, finds every extent once and all
objects of the session among them, and changes no more than `Heap.Walked` says; a second one finds the same extents, and
changes nothing but the epoch. -/
theorem Reached.iterate_faithful (h : Reached s) (hknown : s.Knows id) :
    ∃ objects h', (Heap.iterate id).run s.heap = .ok objects h' ∧ s.heap.Walked objects h' ∧
      (∀ o ∈ s.objects, o.start ∈ objects) ∧
      ∀ id', s.Knows id' → (Heap.iterate id').run h' =
        .ok objects { h' with safepoint := { h'.safepoint with epoch := h'.safepoint.epoch + 1 } } := by
  obtain ⟨ts, hi⟩ := h.inv
  have hs := hi.sound
  refine ⟨_, _, Heap.iterate_run hs hi.settled hi.roots hknown, hs.walk_finds hi.settled, ?_, ?_⟩
  · intro o ho
    obtain ⟨k, hk, hstart⟩ := (hi.objects o ho).tile
    rw [hstart]
    exact List.mem_map.2 ⟨_, mem_usedTiles.2 ⟨hk, by rintro ⟨⟩⟩, rfl⟩
  · intro id' hknown'
    have hroots : s.heap.walked.Rooted s.IsObject := hi.roots
    have hrun := Heap.iterate_run hs.walked (hi.settled.retired _) hroots hknown'
    have hstarts := starts_retired s.heap.space s.heap.tlabs.registered ts
    rw [hrun, hs.walked_walked]
    exact congrArg (fun objects => EStateM.Result.ok objects _) hstarts

/-- Whether a walk of a program that has nothing but a buffer finds anything. -/
def findsTail (h : Heap) : Bool :=
  decide (h.high < addressLimit ∧ h.space.region.wordSize < 2 ^ 32) &&
  match (Heap.newTlab 64 128).run h with
  | .ok (.ok id) h₁ => decide (0 < (h₁.tlabs.get id).freeWords)
  | _ => false

/-- A session with a buffer that has granted nothing, and what a walk makes of it. -/
theorem exists_walked : ∃ s : Session, Reached s ∧ s.Knows none ∧ (∃ id, 0 < (s.heap.tlabs.get id).freeWords) ∧
    ∃ objects h', (Heap.iterate none).run s.heap = .ok objects h' ∧ s.heap.Walked objects h' ∧
      (Heap.iterate none).run h' =
        .ok objects { h' with safepoint := { h'.safepoint with epoch := h'.safepoint.epoch + 1 } } := by
  have hrun : (match Heap.create onePage 4096 true false with | .ok h => findsTail h | .error _ => false) = true := by
    decide +kernel
  cases hc : Heap.create onePage 4096 true false with
  | error e => rw [hc] at hrun; cases hrun
  | ok h =>
  rw [hc] at hrun
  simp only [findsTail, Bool.and_eq_true, decide_eq_true_eq] at hrun
  obtain ⟨⟨hhigh, hsmall⟩, hrun⟩ := hrun
  split at hrun
  case h_2 => cases hrun
  next id h₁ hnew =>
  have hknown : ∀ s : Session, s.Knows none := fun _ _ hi => by cases hi
  have hr : Reached _ := (Reached.create hc (by decide) (by decide) hhigh hsmall).step (.newTlab hnew)
  obtain ⟨objects, h', hwalk, hwalked, -, hagain⟩ := hr.iterate_faithful (hknown _)
  exact ⟨_, hr, hknown _, ⟨id, of_decide_eq_true hrun⟩, objects, h', hwalk, hwalked, hagain none (hknown _)⟩

end Session
end MarkSweep
