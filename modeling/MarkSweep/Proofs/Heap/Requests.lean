import MarkSweep.Proofs.Heap.Allocation
import MarkSweep.Proofs.Space.Walk
/-!
# Requests of collections and walks

A request of a collection runs one cycle or none, and a walk over all objects finds one for every tile that is not free.
Neither ever faults.
-/
namespace MarkSweep
namespace Heap

variable {h : Heap} {ts : List Tile} {P : Address → Prop} {id : Option MutatorId}

theorem Passes.of_untouched {h' : Heap} {cause : Cause} (hun : h.Untouched h') : Passes h ts id cause h' ts :=
  .inl ⟨hun, rfl⟩

/-- **A request of a collection** runs one cycle, or changes nothing that matters. -/
theorem collect_spec (hs : h.Sound ts) (hset : Settled ts) (hc : Closed h.space h.memory h.encoding ts P)
    (hr : h.Rooted P) (hid : ∀ i, id = some i → ∃ m ∈ h.mutators, m.id = i) (cause : Cause) :
    ∃ r h' ts', (collect id cause).run h = .ok r h' ∧ Passes h ts id cause h' ts' ∧ h'.Sound ts' ∧ Settled ts' := by
  have hnoted (h' : Heap) (hrun : (collect id cause).run h = .ok (.ok ()) h') (hun : h.Untouched h')
      (hsafe : h'.safepoint = h.safepoint) : ∃ r h' ts', (collect id cause).run h = .ok r h' ∧
        Passes h ts id cause h' ts' ∧ h'.Sound ts' ∧ Settled ts' :=
    ⟨_, h', ts, hrun, .of_untouched hun, hun.sound hs (by rw [hsafe]; exact hs.idle), hset⟩
  have hcycle (hrun : (collect id cause).run h =
        ((do return (← collectNow id cause).map fun _ => ()) : HeapM (Except HeapError Unit)).run h) :
      ∃ r h' ts', (collect id cause).run h = .ok r h' ∧ Passes h ts id cause h' ts' ∧ h'.Sound ts' ∧ Settled ts' := by
    rcases collectNow_spec hs hset hc hr id hid cause with ⟨h', ts', stats, hnow, hcol, hs'⟩ | ⟨-, h', e, hnow, hun, hs'⟩
    · exact ⟨.ok (), h', ts', by rw [hrun, run_bind_of_ok hnow]; rfl, .inr ⟨stats, hnow, hcol⟩, hs', hcol.settled⟩
    · exact ⟨.error e, h', ts, by rw [hrun, run_bind_of_ok hnow]; rfl, .of_untouched hun, hs', hset⟩
  cases cause with
  | allocationFailure => exact hcycle rfl
  | explicit => exact hcycle rfl
  | metadataThreshold =>
    refine hnoted _ rfl ?_ ?_
    · simp only
      split <;> exact ⟨rfl, rfl, rfl, rfl, rfl, rfl, rfl, rfl, rfl, rfl, rfl, rfl, rfl⟩
    · simp only
      split <;> rfl
  | metadataClearSoftRefs =>
    refine hnoted _ rfl ?_ ?_
    · simp only
      split <;> exact ⟨rfl, rfl, rfl, rfl, rfl, rfl, rfl, rfl, rfl, rfl, rfl, rfl, rfl⟩
    · simp only
      split <;> rfl
  | noGc => exact hnoted _ rfl ⟨rfl, rfl, rfl, rfl, rfl, rfl, rfl, rfl, rfl, rfl, rfl, rfl, rfl⟩ rfl
  | heapInspection => exact hnoted _ rfl ⟨rfl, rfl, rfl, rfl, rfl, rfl, rfl, rfl, rfl, rfl, rfl, rfl, rfl⟩ rfl
  | heapDump => exact hnoted _ rfl ⟨rfl, rfl, rfl, rfl, rfl, rfl, rfl, rfl, rfl, rfl, rfl, rfl, rfl⟩ rfl

theorem collectFull_eq (h : Heap) : collectFull.run h = (collect none h.cause).run h := by
  unfold collectFull
  rw [run_bind_of_ok (EStateM.run_get h)]

/-! ## Walks -/

/-- The world was stopped once and all buffers were retired. -/
def walked (h : Heap) : Heap :=
  { h with
    memory := (h.tlabs.retireAll h.memory).2.1
    tlabs := (h.tlabs.retireAll h.memory).2.2
    safepoint := { h.safepoint with epoch := h.safepoint.epoch + 1 } }

theorem Sound.retired (hs : h.Sound ts) :
    Retired h.space h.memory h.tlabs ts h.tlabs.registered h.walked.memory h.walked.tlabs := by
  obtain ⟨memory, tlabs, hretire, hret⟩ := hs.mapped.retireAll
  unfold walked
  rwa [hretire]

theorem Sound.walked (hs : h.Sound ts) : h.walked.Sound (ts.map (Tile.retired h.tlabs.registered)) := by
  have hidle := hs.idle
  have hret := hs.retired
  refine ⟨hret.mapped, hs.framed.congr rfl rfl rfl rfl, ⟨hs.mutators.nodup, hs.mutators.issued⟩, ?_, hs.owners, ?_, hs.sizes⟩
  · exact ⟨hidle.requested, hidle.pending, hidle.running, hidle.parked, hidle.registered, hidle.threadRoots⟩
  · intro m hm
    rw [hret.registered]
    exact hs.owned m hm

/-- **A walk** retires every buffer and finds the starts of the tiles in use. -/
theorem iterate_run (hs : h.Sound ts) (hset : Settled ts) (hr : h.Rooted P)
    (hid : ∀ i, id = some i → ∃ m ∈ h.mutators, m.id = i) :
    (iterate id).run h = .ok ((usedTiles ts).map fun t => h.space.address t.first) h.walked := by
  obtain ⟨roots, s, r, -, hidle, hepoch, hrun⟩ := stopTheWorld_spec hs.idle hs.mutators (fun m hm => hr.loads hm) id hid
  have hret := hs.retired
  have hclean := hret.clean hset
  have hobjects := hret.mapped.tiled.objects_eq fun t ht hfree => hret.mapped.headed t ht ((hclean t ht).resolve_left hfree)
  rw [starts_retired] at hobjects
  unfold iterate
  rw [hrun]
  simp only [Heap.walked] at hobjects ⊢
  simp only [EStateM.run_bind, EStateM.run_get, EStateM.run_set, hobjects, run_lift_ok, hs.idle.eq_tick hidle hepoch]

theorem iterate_spec (hs : h.Sound ts) (hset : Settled ts) (hr : h.Rooted P)
    (hid : ∀ i, id = some i → ∃ m ∈ h.mutators, m.id = i) :
    ∃ h' ts', (iterate id).run h = .ok ((usedTiles ts').map fun t => h.space.address t.first) h' ∧ h'.Sound ts' ∧
      Settled ts' ∧ Carries h ts h' ts' ∧ h.space = h'.space ∧ h'.tlabs.registered = h.tlabs.registered ∧
      (∀ id, (h'.tlabs.get id).refills = (h.tlabs.get id).refills) ∧ h'.mutators = h.mutators ∧
      h'.nextMutator = h.nextMutator := by
  have hrun := iterate_run hs hset hr hid
  have hret := hs.retired
  rw [← starts_retired h.space h.tlabs.registered] at hrun
  exact ⟨_, _, hrun, hs.walked, hset.retired _, ⟨hret.keeps, ⟨.refl _, rfl, rfl, rfl, rfl, rfl, rfl, rfl, rfl⟩, rfl, rfl⟩, rfl,
    hret.registered, hret.refills, rfl, rfl⟩

end Heap
end MarkSweep
