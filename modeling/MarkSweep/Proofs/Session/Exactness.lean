import MarkSweep.Proofs.Heap.Across
import MarkSweep.Proofs.MaximalRuns
import MarkSweep.Proofs.Session.Steps
/-!
# A cycle is exact

After a cycle a walk finds the objects that references led to when it began, and no others; the free list is what they
leave, run by run; and the statistics count both.  `Heap.Exact` says so of one cycle, `Reached.cycle_exact` of every cycle
that any session runs.  A collection leaves the heap of its cycle, and so does a request that is refused after one; a
request that is granted is answered from that heap.
-/
namespace MarkSweep
namespace Heap

/-- The words of the object at `a`, in whole granules. -/
def extentWords (h : Heap) (a : Address) : Nat := h.space.granulesFor (Object.size h.memory a) * h.space.granuleWords

/-- The object at `a` has words in granule `i`. -/
def Occupies (h : Heap) (a : Address) (i : Nat) : Prop :=
  a ≤ h.space.address i ∧ h.space.address i < a + h.extentWords a * wordBytes

/-- **What a cycle from `h` to `h'` with statistics `stats` has done**: `objects` is what a walk finds then, and `runs`
are the free granules, each run with its first one and their number. -/
structure Exact (h h' : Heap) (stats : CycleStats) (objects : List Address) (runs : List (Nat × Nat)) : Prop where
  walk : h'.space.objects h'.memory = .ok objects
  ascending : objects.Pairwise (· < ·)
  live : ∀ a, a ∈ objects ↔ h.Live a
  kept : ∀ a ∈ objects, ∀ j < h'.extentWords a, h'.memory.word (a / wordBytes + j) = h.memory.word (a / wordBytes + j)
  maximal : MaximalRuns (fun i => ∀ a ∈ objects, ¬h'.Occupies a i) h'.space.granules runs
  chunks : h'.chunks = runs.map fun r => ⟨h'.space.address r.1, r.2 * h'.space.granuleWords⟩
  marked : stats.markedObjects = objects.length
  liveWords : stats.liveWords = (objects.map h'.extentWords).sum
  freeWords : stats.freeWords = (h'.chunks.map (·.words)).sum
  freeChunks : stats.freeChunks = h'.chunks.length
  total : stats.liveWords + stats.freeWords = h'.space.region.wordSize
  reclaimed : stats.liveWords + stats.reclaimedWords = h.space.usedWords
  waste : stats.tlabWasteWords = (h.tlabs.registered.map fun id => (h.tlabs.get id).freeWords).sum

variable {h h' : Heap} {ts ts' : List Tile} {t : Tile} {P : Address → Prop} {stats : CycleStats}

/-! ## Objects and their tiles -/

theorem extentWords_of_headed (ht : h.space.Headed h.memory t) :
    h.extentWords (h.space.address t.first) = t.count * h.space.granuleWords := by
  unfold extentWords
  rw [ht]

theorem occupies_iff (hs : h.space.Regular) (ht : h.space.Headed h.memory t) (i : Nat) :
    h.Occupies (h.space.address t.first) i ↔ t.Covers i := by
  unfold Occupies
  rw [extentWords_of_headed ht, h.space.address_add_words, hs.address_le, hs.address_lt]
  rfl

namespace Collected

theorem mem_objects_iff (c : h.Collected ts h' ts' stats) (hc : Closed h.space h.memory h.encoding ts P) (hr : h.Rooted P)
    (a : Address) : a ∈ (usedTiles ts').map (fun t => h'.space.address t.first) ↔ h.Live a := by
  rw [List.mem_map]
  constructor
  · rintro ⟨t, ht, rfl⟩
    obtain ⟨hmem, hk, -⟩ := c.headed ht
    rw [c.frame.grid.address]
    exact ((c.live t hk).1 hmem).2
  · intro ha
    obtain ⟨t, ht, hk, rfl, -⟩ := hc.tile a (hr.of_live hc ha)
    have hmem : t ∈ ts' := (c.live t hk).2 ⟨ht, ha⟩
    refine ⟨t, mem_usedTiles.2 ⟨hmem, ?_⟩, c.frame.grid.address _⟩
    intro hfree
    rw [Tile.IsFree, hk] at hfree
    cases hfree

/-- A granule lies in no tile in use if no object has words in it. -/
theorem uncovered_iff (c : h.Collected ts h' ts' stats) :
    (fun i => ∀ a ∈ (usedTiles ts').map (fun t => h'.space.address t.first), ¬h'.Occupies a i) =
      fun i => ∀ t ∈ usedTiles ts', ¬t.Covers i := by
  funext i
  simp only [List.mem_map, forall_exists_index, and_imp, forall_apply_eq_imp_iff₂]
  apply propext
  refine forall_congr' fun t => forall_congr' ?_
  intro ht
  rw [occupies_iff c.mapped.tiled.toRegular (c.headed ht).2.2]

/-- **A completed cycle is exact.** -/
theorem exact (c : h.Collected ts h' ts' stats) (hc : Closed h.space h.memory h.encoding ts P) (hr : h.Rooted P) :
    h.Exact h' stats ((usedTiles ts').map fun t => h'.space.address t.first)
      ((freeTiles ts').map fun t => (t.first, t.count)) := by
  have hs := c.mapped.tiled
  have hchunks : h'.chunks = (freeTiles ts').map h'.space.chunk := hs.list.chunks
  have hwords : ((usedTiles ts').map fun t => h'.space.address t.first).map h'.extentWords =
      (usedTiles ts').map fun t => t.count * h'.space.granuleWords := by
    rw [List.map_map]
    exact List.map_congr_left fun t ht => extentWords_of_headed (c.headed ht).2.2
  have hlive : stats.liveWords = h'.space.tileWords (usedTiles ts') := by
    rw [c.liveWords, Space.tileWords, Space.tileWords, c.frame.grid.2]
  constructor
  case walk => exact hs.objects_eq c.parsable
  case ascending => exact hs.starts_ascending
  case live => exact c.mem_objects_iff hc hr
  case kept =>
    intro a ha j hj
    obtain ⟨t, ht, rfl⟩ := List.mem_map.1 ha
    obtain ⟨hmem, hk, hhead⟩ := c.headed ht
    rw [extentWords_of_headed hhead] at hj
    have hgrid := c.frame.grid
    rw [hs.address_div_eq, hgrid.wordAt]
    apply c.kept t hmem hk _ (Nat.le_add_right _ _)
    rw [Tile.stop, h.space.wordAt_add, ← hgrid.2]
    exact Nat.add_lt_add_left hj _
  case maximal =>
    rw [c.uncovered_iff]
    exact hs.tiling.maximalRuns hs.separated
  case chunks =>
    rw [hchunks, List.map_map]
    rfl
  case marked => rw [c.marked, List.length_map]
  case liveWords => rw [hlive, hwords, Space.tileWords]
  case freeWords =>
    rw [c.freeWords, hchunks]
    exact hs.list.freeWords
  case freeChunks =>
    rw [c.freeChunks, hchunks]
    exact hs.list.length
  case total =>
    rw [hlive, c.freeWords, Nat.add_comm]
    exact hs.freeWords_add_used
  case reclaimed => exact c.reclaimed
  case waste => exact c.waste

/-- What a cycle left of an object is still there after a step without a cycle. -/
theorem keeps_words {h'' : Heap} {ts'' : List Tile} {a : Address} {j : Nat} (c : h.Collected ts h' ts' stats)
    (hc : h'.Carries ts' h'' ts'') (ha : a ∈ (usedTiles ts').map fun t => h'.space.address t.first)
    (hj : j < h'.extentWords a) : h''.memory.word (a / wordBytes + j) = h'.memory.word (a / wordBytes + j) := by
  obtain ⟨t, ht, rfl⟩ := List.mem_map.1 ha
  obtain ⟨hmem, hk, hhead⟩ := c.headed ht
  rw [extentWords_of_headed hhead] at hj
  rw [c.mapped.tiled.address_div_eq]
  apply (hc.keeps t hmem hk).2 _ (Nat.le_add_right _ _)
  rw [Tile.stop, Space.wordAt_add]
  exact Nat.add_lt_add_left hj _

end Collected
end Heap

namespace Session

/-- **Every cycle that completes is exact**, and so is the heap that a collection leaves.  What a step did after its cycle is
to answer its request from the heap that the cycle left, which leaves the objects alone; and a collection that is answered
with success has run its cycle. -/
theorem Reached.cycle_exact {s : Session} (hr : Reached s) :
    (∀ s', s.Step s' →
      (s'.heap.collections = s.heap.collections ∧ s'.heap.lastCycle = s.heap.lastCycle) ∨
      ∃ id cause h₁ stats objects runs, s.Cycled h₁ id cause s' ∧
        (Heap.collectNow id cause).run s.heap = .ok (.ok stats) h₁ ∧ s.heap.Exact h₁ stats objects runs ∧
        s'.heap.collections = s.heap.collections + 1 ∧ s'.heap.lastCycle = some stats ∧
        ∀ a ∈ objects, ∀ j < h₁.extentWords a,
          s'.heap.memory.word (a / wordBytes + j) = s.heap.memory.word (a / wordBytes + j)) ∧
    ∀ id cause h', s.Knows id → cause.Cycles → (Heap.collect id cause).run s.heap = .ok (.ok ()) h' →
      ∃ stats objects runs, (Heap.collectNow id cause).run s.heap = .ok (.ok stats) h' ∧
        s.heap.Exact h' stats objects runs ∧ h'.collections = s.heap.collections + 1 ∧ h'.lastCycle = some stats := by
  obtain ⟨ts, hi⟩ := hr.inv
  constructor
  · intro s' hn
    obtain ⟨ts', hi', hsame | ⟨id, cause, h₁, ts₁, stats, hcycled, hrun, hcol, hcar⟩⟩ := hn.leads hi
    · exact .inl hsame
    · have hexact := hcol.exact hi.closed hi.roots
      refine .inr ⟨id, cause, h₁, stats, _, _, hcycled, hrun, hexact, ?_, ?_, ?_⟩
      · rw [hcar.collections, hcol.collections]
      · rw [hcar.lastCycle, hcol.lastCycle]
      · intro a ha j hj
        rw [← hexact.kept a ha j hj]
        exact hcol.keeps_words hcar ha hj
  · intro id cause h' hknown hcycles hrun
    rw [Heap.collect_eq hcycles] at hrun
    obtain ⟨r, h₁, hnow, hrun⟩ := run_bind_eq_ok hrun
    rcases Heap.collectNow_spec hi.sound hi.settled hi.closed hi.roots id hknown cause with
      ⟨h₂, ts₂, stats, hok, hcol, -⟩ | ⟨-, h₂, e, hrefused, -⟩
    · cases hok.symm.trans hnow
      cases hrun
      exact ⟨stats, _, _, hok, hcol.exact hi.closed hi.roots, hcol.collections, hcol.lastCycle⟩
    · cases hrefused.symm.trans hnow
      cases hrun

/-- A cycle that leaves an object, and is all that the step did. -/
theorem exists_exact_cycle : ∃ s s' : Session, Reached s ∧ s.Step s' ∧ ∃ id cause h₁ stats objects runs,
    s.Cycled h₁ id cause s' ∧ (Heap.collectNow id cause).run s.heap = .ok (.ok stats) h₁ ∧
      s.heap.Exact h₁ stats objects runs ∧ s'.heap.lastCycle = some stats ∧ objects ≠ [] := by
  obtain ⟨s, s', hr, hn, hne, o, -, hlive⟩ := exists_cycle
  rcases hr.cycle_exact.1 s' hn with hsame | ⟨id, cause, h₁, stats, objects, runs, hcycled, hrun, hexact, -, hlast, -⟩
  · exact absurd hsame.1 hne
  · exact ⟨s, s', hr, hn, id, cause, h₁, stats, objects, runs, hcycled, hrun, hexact, hlast,
      List.ne_nil_of_mem ((hexact.live _).2 hlive)⟩

end Session
end MarkSweep
