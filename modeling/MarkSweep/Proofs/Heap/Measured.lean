import MarkSweep.Proofs.Heap.Aborts
import MarkSweep.Proofs.Space.Contained
/-!
# Sizes stay in bounds

The largest buffer is rounded up to granules and capped at the heap, and the size that a mutator desires is clamped to it
and rounded up once more.  No request leads past these bounds, nor a free chunk out of the heap, whatever the program wrote
over its memory (`Heap.Measured`).
-/
namespace MarkSweep
namespace Heap

variable {α : Type} {h h' : Heap}

/-- **Chunks lie in the heap, and sizes lie below the largest buffer.** -/
structure Measured (h : Heap) : Prop where
  contained : h.space.Contained
  largest_dvd : h.space.granuleWords ∣ h.maxTlabWords
  mutators : ∀ m ∈ h.mutators, m.tlabWords ≤ h.largestTlab ∧ m.refillWasteLimit = m.tlabWords / tlabRefillWasteFraction

/-- The grid and the largest buffer are as they were, no buffer was forgotten, and all is measured again. -/
structure SameSizes (h h' : Heap) : Prop where
  grid : h.space.SameGrid h'.space
  largest : h'.maxTlabWords = h.maxTlabWords
  buffers : h.tlabs.buffers.size ≤ h'.tlabs.buffers.size
  measured : h'.Measured

theorem SameSizes.largestTlab (a : h.SameSizes h') : h'.largestTlab = h.largestTlab := by
  rw [Heap.largestTlab, Heap.largestTlab, a.largest, a.grid.2]

def KeepsSizes (h h' : Heap) : Prop := h.Measured → h.SameSizes h'

namespace KeepsSizes

instance : Std.Refl KeepsSizes := ⟨fun _ hm => ⟨.refl _, rfl, Nat.le_refl _, hm⟩⟩

instance : IsTrans Heap KeepsSizes := ⟨fun _ _ _ a b hm =>
  have a := a hm
  have b := b a.measured
  ⟨a.grid.trans b.grid, b.largest.trans a.largest, Nat.le_trans a.buffers b.buffers, b.measured⟩⟩

/-- The space may change within its grid, and mutators in all but their sizes. -/
theorem of_mutators (hspace : h.space.Contained → h.space.SameGrid h'.space ∧ h'.space.Contained)
    (hlargest : h'.maxTlabWords = h.maxTlabWords) (hbuffers : h.tlabs.buffers.size ≤ h'.tlabs.buffers.size)
    (hmutators : ∀ m' ∈ h'.mutators, ∃ m ∈ h.mutators, m'.tlabWords = m.tlabWords ∧ m'.refillWasteLimit = m.refillWasteLimit) :
    h.KeepsSizes h' := by
  intro hm
  obtain ⟨hgrid, hcontained⟩ := hspace hm.contained
  refine ⟨hgrid, hlargest, hbuffers, hcontained, ?_, fun m' hm' => ?_⟩
  · rw [hgrid.2, hlargest]
    exact hm.largest_dvd
  · obtain ⟨m, hmem, hwords, hwaste⟩ := hmutators m' hm'
    rw [hwords, hwaste, Heap.largestTlab, hlargest, hgrid.2]
    exact hm.mutators m hmem

/-- Nothing counts but the space, the mutators and the number of buffers. -/
theorem of_eq (hbuffers : h.tlabs.buffers.size ≤ h'.tlabs.buffers.size)
    (hspace : h.space.Contained → h.space.SameGrid h'.space ∧ h'.space.Contained)
    (same : h' = { h' with maxTlabWords := h.maxTlabWords, mutators := h.mutators }) : h.KeepsSizes h' := by
  refine of_mutators hspace (by rw [same]) hbuffers fun m hm => ⟨m, ?_, rfl, rfl⟩
  rwa [same] at hm

end KeepsSizes

/-! ## Requests -/

theorem keepsSizes_across_allocations : AcrossAllocations KeepsSizes where
  writes hw := by
    rw [hw.same]
    exact .of_eq hw.buffers (fun hc => ⟨.refl _, hc⟩) rfl
  carves {h words x} hrun := by
    refine .of_eq (Nat.le_refl _) (fun hc => ?_) rfl
    rcases hc.allocate_spec words with hnone | ⟨k, s', hsome, -, hgrid, hs'⟩
    · cases hrun.symm.trans hnone
      exact ⟨.refl _, hc⟩
    · cases hrun.symm.trans hsome
      exact ⟨hgrid, hs'⟩

theorem keepsSizes_across_cycles : AcrossCycles KeepsSizes where
  quiet hbuffers same := by
    rw [same]
    exact .of_eq hbuffers (fun hc => ⟨.refl _, hc⟩) rfl
  sweep h := .of_eq (Nat.le_refl _) (fun hc => hc.sweep_spec h.memory h.live) rfl

theorem stopTheWorld_keepsSizes {id : Option MutatorId} {op : List Address → HeapM α}
    (hop : ∀ roots, Leads KeepsSizes (op roots)) : Leads KeepsSizes (stopTheWorld id op) := by
  have hsafepoint (h : Heap) (s : Safepoint) : h.KeepsSizes { h with safepoint := s } :=
    .of_eq (Nat.le_refl _) (fun hc => ⟨.refl _, hc⟩) rfl
  intro h
  refine stopTheWorld_final (Std.Refl.refl h) (fun roots s => ?_) fun hkeeps => IsTrans.trans _ _ _ hkeeps (hsafepoint _ _)
  exact IsTrans.trans _ _ _ (hsafepoint h s) (hop roots _)

theorem collectNow_keepsSizes (id : Option MutatorId) (cause : Cause) : Leads KeepsSizes (collectNow id cause) :=
  .bind (.modify fun _ => keepsSizes_across_allocations.writes ⟨Nat.le_refl _, rfl, rfl⟩) fun _ =>
    stopTheWorld_keepsSizes (keepsSizes_across_cycles.runCycle cause)

theorem newMutator_keepsSizes : Leads KeepsSizes newMutator := by
  intro h hm
  unfold newMutator
  simp only [EStateM.run_bind, EStateM.run_get]
  have hrefl : h.SameSizes h := ⟨.refl _, rfl, Nat.le_refl _, hm⟩
  cases h.safepoint.register with
  | none => exact hrefl
  | some s =>
  simp only [EStateM.run_bind]
  cases h.adjust (h.settings.minTlabSize / wordBytes) with
  | error f => exact hrefl
  | ok minWords =>
  simp only [run_lift_ok]
  cases hsize : h.tlabSizeFor (min minWords h.maxTlabWords) (h.settings.tlabSize / wordBytes) with
  | error f => exact hrefl
  | ok tlabWords =>
  obtain ⟨-, -, -, -, hle⟩ := tlabSizeFor_spec hm.largest_dvd hsize
  refine ⟨.refl _, rfl, ?_, hm.contained, hm.largest_dvd, fun m hmem => ?_⟩
  · show h.tlabs.buffers.size ≤ (h.tlabs.buffers.push .empty).size
    rw [Array.size_push]
    exact Nat.le_succ _
  · rcases List.mem_append.1 hmem with hmem | hmem
    · exact hm.mutators m hmem
    · rw [List.mem_singleton.1 hmem]
      exact ⟨hle, rfl⟩

theorem dropMutator_keepsSizes (id : MutatorId) : Leads KeepsSizes (dropMutator id) := by
  intro h
  unfold dropMutator
  simp only [EStateM.run_bind, EStateM.run_get]
  cases hmut : h.mutator id with
  | error f => exact Std.Refl.refl h
  | ok m =>
  have hretire := keepsSizes_across_allocations.writes (h.writes_retireTlab m.tlab)
  simp only [run_lift_ok, EStateM.run_modify]
  cases (h.retireTlab m.tlab).safepoint.unregister with
  | error f => exact hretire
  | ok s =>
    refine IsTrans.trans _ _ _ hretire (.of_mutators (fun hc => ⟨.refl _, hc⟩) rfl (Nat.le_refl _) fun m' hm' => ?_)
    exact ⟨m', (List.mem_filter.1 hm').1, rfl, rfl⟩

theorem updateRoots_keepsSizes (h : Heap) (id : MutatorId) (f : RootSlots → RootSlots) : h.KeepsSizes (h.updateRoots id f) := by
  refine .of_mutators (fun hc => ⟨.refl _, hc⟩) rfl (Nat.le_refl _) fun m hm => ?_
  obtain ⟨m', hm', rfl⟩ := List.mem_map.1 hm
  refine ⟨m', hm', ?_⟩
  split <;> exact ⟨rfl, rfl⟩

theorem keepsSizes_across : AcrossRequests KeepsSizes where
  toAcrossAllocations := keepsSizes_across_allocations
  collectNow := collectNow_keepsSizes
  iterate id := by
    rw [iterate_eq]
    exact stopTheWorld_keepsSizes fun _ => keepsSizes_across_allocations.visit
  newMutator := newMutator_keepsSizes
  dropMutator := dropMutator_keepsSizes
  updateRoots := updateRoots_keepsSizes

end Heap
end MarkSweep
