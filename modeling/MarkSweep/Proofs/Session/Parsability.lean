import MarkSweep.Proofs.Session.Steps
/-!
# A heap can be walked at any time

Between operations the region is divided into free chunks, tails of buffers and headed extents (`Heap.Divided`), with
nothing in between.  So no cycle and no walk over the objects ever comes to a word that it cannot step over
(`Reached.walks`).
-/
namespace MarkSweep
namespace Heap

/-- **The tiles account for every granule of the committed region**: each is a free chunk, the tail of one buffer, or an
extent whose header rounds up to it. -/
structure Divided (h : Heap) (ts : List Tile) : Prop where
  low : h.space.address 0 = h.low
  high : h.space.address h.space.granules = h.high
  tiling : Tiling 0 ts h.space.granules
  kinds : ∀ t ∈ ts, t.kind = .free ∨ t.kind = .object ∨ ∃ id, t.kind = .tail id
  chunks : h.chunks = (freeTiles ts).map h.space.chunk
  tails : ∀ id k n, (⟨.tail id, k, n⟩ : Tile) ∈ ts ↔ id ∈ h.tlabs.registered ∧ (h.tlabs.get id).isEmpty = false ∧ 0 < n ∧
    k + n ≤ h.space.granules ∧ (h.tlabs.get id).top = h.space.address k ∧ (h.tlabs.get id).stop = h.space.address (k + n)
  headed : ∀ t ∈ ts, t.kind = .object →
    h.space.granulesFor (Object.size h.memory (h.space.address t.first)) = t.count

variable {h : Heap} {ts : List Tile}

theorem mem_tail_iff (hm : Mapped h.space h.memory h.tlabs ts) (id : TlabId) (k n : Nat) :
    (⟨.tail id, k, n⟩ : Tile) ∈ ts ↔ id ∈ h.tlabs.registered ∧ (h.tlabs.get id).isEmpty = false ∧ 0 < n ∧
      k + n ≤ h.space.granules ∧ (h.tlabs.get id).top = h.space.address k ∧
      (h.tlabs.get id).stop = h.space.address (k + n) := by
  have hs := hm.tiled
  rcases hm.buffers.fits id with ⟨hempty, -, hnone⟩ | ⟨hempty, i, j, hij, hj, htop, hstop, htail⟩
  · apply iff_of_false (hnone k n)
    intro hr
    rw [hempty] at hr
    cases hr.2.1
  rw [htail]
  constructor
  · rintro ⟨hlt, rfl, rfl⟩
    refine ⟨hm.buffers.mem_of_tail ((htail k (j - k)).2 ⟨hlt, rfl, rfl⟩), hempty, Nat.sub_pos_of_lt hlt, ?_, htop, ?_⟩
    · rwa [Nat.add_sub_cancel' hij]
    · rw [hstop, Nat.add_sub_cancel' hij]
  · rintro ⟨-, -, hpos, -, htop', hstop'⟩
    obtain rfl : i = k := hs.address_inj.1 (htop.symm.trans htop')
    obtain rfl : j = i + n := hs.address_inj.1 (hstop.symm.trans hstop')
    exact ⟨Nat.lt_add_of_pos_right hpos, rfl, (Nat.add_sub_cancel_left i n).symm⟩

theorem Sound.divided (hs : h.Sound ts) (hset : Settled ts) : h.Divided ts where
  low := h.space.address_zero
  high := hs.mapped.tiled.stop_eq.symm
  tiling := hs.mapped.tiled.tiling
  kinds := by
    rintro ⟨kind, k, n⟩ ht
    cases kind with
    | free => exact .inl rfl
    | tail id => exact .inr (.inr ⟨id, rfl⟩)
    | object => exact .inr (.inl rfl)
    | raw => exact absurd rfl (hset _ ht)
  chunks := hs.mapped.tiled.list.chunks
  tails := mem_tail_iff hs.mapped
  headed := hs.mapped.headed

end Heap

namespace Session

variable {s : Session}

/-- **The heap is divided at any time, and every cycle and every walk over it comes to its end.** -/
theorem Reached.walks (h : Reached s) : (∃ ts, s.heap.Divided ts) ∧ ∀ id, s.Knows id →
    (∀ cause, ∃ r h', (Heap.collectNow id cause).run s.heap = .ok r h') ∧
    (∀ cause, ∃ r h', (Heap.collect id cause).run s.heap = .ok r h') ∧
    ∃ objects h', (Heap.iterate id).run s.heap = .ok objects h' ∧ ∀ o ∈ s.objects, o.start ∈ objects := by
  obtain ⟨ts, hi⟩ := h.inv
  refine ⟨⟨ts, hi.sound.divided hi.settled⟩, fun id hknown => ⟨?_, ?_, ?_⟩⟩
  · intro cause
    rcases Heap.collectNow_spec hi.sound hi.settled hi.closed hi.roots id hknown cause with
      ⟨h', -, stats, hrun, -⟩ | ⟨-, h', e, hrun, -⟩
    · exact ⟨_, h', hrun⟩
    · exact ⟨_, h', hrun⟩
  · intro cause
    obtain ⟨r, h', -, hrun, -⟩ := Heap.collect_spec hi.sound hi.settled hi.closed hi.roots hknown cause
    exact ⟨r, h', hrun⟩
  · obtain ⟨h', ts', hrun, -, -, hcar, -⟩ := Heap.iterate_spec hi.sound hi.settled hi.roots hknown
    refine ⟨_, h', hrun, ?_⟩
    intro o ho
    obtain ⟨k, hk, hstart⟩ := (hi.objects o ho).tile
    have hmem := (hcar.keeps _ hk rfl).1
    rw [hstart]
    exact List.mem_map.2 ⟨_, mem_usedTiles.2 ⟨hmem, by rintro ⟨⟩⟩, rfl⟩

/-- A session whose heap is divided, with an object that a walk finds. -/
theorem exists_walk : ∃ s : Session, Reached s ∧ (∃ ts, s.heap.Divided ts) ∧
    ∃ objects h', (Heap.iterate none).run s.heap = .ok objects h' ∧ objects ≠ [] := by
  obtain ⟨s, -, h, -, -, o, ho, -⟩ := exists_cycle
  obtain ⟨hdivided, hwalks⟩ := h.walks
  obtain ⟨-, -, objects, h', hrun, hmem⟩ := hwalks none fun _ hi => by cases hi
  exact ⟨s, h, hdivided, objects, h', hrun, List.ne_nil_of_mem (hmem o ho)⟩

end Session
end MarkSweep
