import MarkSweep.Proofs.Heap.Lock
/-!
# Across allocations, cycles and requests

Operations are made of few kinds of changes: chunks are carved and swept, memory and buffers are written, mutators come and
go.  A reflexive and transitive relation that holds across each of them holds across every operation, however it ends
(`Request.leads`).
-/
namespace MarkSweep

variable {α : Type}

theorem TlabRegistry.size_retire (r : TlabRegistry) (m : Memory) (id : TlabId) :
    (r.retire m id).2.2.buffers.size = r.buffers.size := Array.size_setIfInBounds

theorem TlabRegistry.size_retireAll (r : TlabRegistry) (m : Memory) :
    (r.retireAll m).2.2.buffers.size = r.buffers.size := by
  unfold retireAll
  generalize r.registered = ids
  show _ = ((0, m, r) : Nat × Memory × TlabRegistry).2.2.buffers.size
  generalize ((0, m, r) : Nat × Memory × TlabRegistry) = acc
  induction ids generalizing acc with
  | nil => rfl
  | cons id ids ih =>
    obtain ⟨total, m, r⟩ := acc
    rw [List.foldl_cons, ih]
    exact r.size_retire m id

namespace Heap

/-- What an allocation and the program write, as long as no buffer is forgotten and no cycle aborted. -/
structure Writes (h h' : Heap) : Prop where
  buffers : h.tlabs.buffers.size ≤ h'.tlabs.buffers.size
  aborts : h'.aborts = h.aborts
  same : h' = { h with
    memory := h'.memory, tlabs := h'.tlabs, roots := h'.roots, cause := h'.cause, granted := h'.granted, log := h'.log,
    hookCalls := h'.hookCalls }

theorem writes_note (h : Heap) {n : Notice} (hn : n.isAbort = false) : h.Writes (h.note n) := by
  refine ⟨Nat.le_refl _, ?_, rfl⟩
  unfold aborts note
  simp only [Array.countP_push, hn, Bool.false_eq_true, if_false, Nat.add_zero]

theorem writes_retireTlab (h : Heap) (id : TlabId) : h.Writes (h.retireTlab id) :=
  ⟨Nat.le_of_eq (h.tlabs.size_retire h.memory id).symm, rfl, rfl⟩

theorem writes_bump (h : Heap) (id : TlabId) (words : Nat) : h.Writes (h.bump id words).2 := by
  unfold bump
  split
  · exact ⟨Nat.le_refl _, rfl, rfl⟩
  · exact ⟨Nat.le_of_eq Array.size_setIfInBounds.symm, rfl, rfl⟩

/-! ## Allocations -/

/-- The relation holds across all that an allocation without a cycle does. -/
structure AcrossAllocations (R : Heap → Heap → Prop) : Prop where
  writes : ∀ {h h'}, h.Writes h' → R h h'
  carves : ∀ {h words x}, h.space.allocate words = .ok x → R h { h with space := x.2 }

namespace AcrossAllocations

variable {R : Heap → Heap → Prop}

theorem installNew (hR : AcrossAllocations R) (words : Nat) (start : Address) : Leads R (installNew words start) := by
  refine .modifyGet fun h => hR.writes ⟨?_, rfl, rfl⟩
  show h.tlabs.buffers.size ≤ (Array.setIfInBounds (h.tlabs.buffers.push .empty) _ _).size
  rw [Array.size_setIfInBounds, Array.size_push]
  exact Nat.le_succ _

theorem visit (hR : AcrossAllocations R) : Leads R visit := by
  intro h
  unfold Heap.visit
  simp only [EStateM.run_bind, EStateM.run_get, EStateM.run_set]
  cases h.space.objects (h.tlabs.retireAll h.memory).2.1 <;>
    exact hR.writes ⟨Nat.le_of_eq (h.tlabs.size_retireAll h.memory).symm, rfl, rfl⟩

theorem dropTlab [IsTrans Heap R] (hR : AcrossAllocations R) (h : Heap) (id : TlabId) : R h (h.dropTlab id) :=
  IsTrans.trans _ _ _ (hR.writes (h.writes_retireTlab id)) (hR.writes ⟨Nat.le_refl _, rfl, rfl⟩)

variable [Std.Refl R]

theorem carve (hR : AcrossAllocations R) (words : Nat) : Leads R (carve words) := by
  intro h
  unfold Heap.carve
  simp only [EStateM.run_bind, EStateM.run_get]
  cases ha : h.space.allocate words with
  | error f => exact Std.Refl.refl h
  | ok x => exact hR.carves ha

theorem setRef (hR : AcrossAllocations R) (obj : Address) (i : Nat) (target : Address) :
    Leads R (setRef obj i target) := by
  intro h
  unfold Heap.setRef
  simp only [EStateM.run_bind, EStateM.run_get]
  split
  · cases h.encoding.encode target with
    | error f => exact Std.Refl.refl h
    | ok n => exact hR.writes ⟨Nat.le_refl _, rfl, rfl⟩
  · exact hR.writes ⟨Nat.le_refl _, rfl, rfl⟩

variable [IsTrans Heap R]

theorem claim (hR : AcrossAllocations R) (words : Nat) {use : Address → HeapM α} (hu : ∀ a, Leads R (use a)) :
    Leads R (claim words use) := by
  refine (hR.carve words).bind fun a => ?_
  cases a with
  | none => exact .pure _
  | some a => exact (hu a).bind fun _ => .pure _

theorem refuse (words : Nat) : Leads R (refuse words) := .get_bind fun _ => (Leads.lift _).bind fun _ => .pure _

theorem fillClaimed (hR : AcrossAllocations R) (words : Nat) (a : Address) : Leads R (fillClaimed words a) :=
  .get_bind fun _ => (Leads.lift _).bind fun _ =>
    .bind (.modify fun _ => hR.writes ⟨Nat.le_refl _, rfl, rfl⟩) fun _ => .pure _

theorem allocateIn (hR : AcrossAllocations R) (id : TlabId) (words : Nat) : Leads R (allocateIn id words) := by
  refine .get_bind fun h => ?_
  cases h.space.canFit words with
  | false => exact .pure _
  | true =>
  refine .get_bind fun h => (Leads.lift _).bind fun words => .modifyGet fun h => ?_
  have hbump := hR.writes (h.writes_bump id words)
  rcases hb : h.bump id words with ⟨_ | a, h'⟩ <;> rw [hb] at hbump
  · exact hbump
  · exact IsTrans.trans _ _ _ hbump (hR.writes ⟨Nat.le_refl _, rfl, rfl⟩)

theorem refillOrCarve (hR : AcrossAllocations R) (m : Mutator) (words : Nat) : Leads R (refillOrCarve m words) := by
  refine .get_bind fun h => ?_
  split
  · refine .get_bind fun h => (Leads.lift _).bind fun size => (hR.carve size).bind fun a => ?_
    cases a with
    | none => exact hR.carve words
    | some start =>
      refine .modifyGet fun h => ?_
      have hinstall : (h.retireTlab m.tlab).Writes ((h.retireTlab m.tlab).installTlab m.tlab start size) :=
        ⟨Nat.le_of_eq Array.size_setIfInBounds.symm, rfl, rfl⟩
      have hrefilled := IsTrans.trans _ _ _ (hR.writes (h.writes_retireTlab m.tlab)) (hR.writes hinstall)
      exact IsTrans.trans _ _ _ hrefilled (hR.writes (writes_bump _ m.tlab words))
  · exact hR.carve words

/-- What is asked for without a cycle is noted only. -/
theorem note (hR : AcrossAllocations R) {cause : Cause} (hc : ¬cause.Cycles) (id : Option MutatorId) :
    Leads R (Heap.collect id cause) := by
  cases cause with
  | allocationFailure => exact absurd (.inl rfl) hc
  | explicit => exact absurd (.inr rfl) hc
  | metadataThreshold | metadataClearSoftRefs =>
    refine .bind (.modify fun h => ?_) fun _ => .pure _
    have hnote (cause : Cause) := h.writes_note (n := .requestHandled cause) rfl
    dsimp only
    split
    · exact hR.writes ⟨Nat.le_refl _, (hnote _).aborts, rfl⟩
    · exact hR.writes (hnote _)
  | noGc | heapInspection | heapDump => exact .bind (.modify fun h => hR.writes (h.writes_note rfl)) fun _ => .pure _

end AcrossAllocations

/-! ## Cycles -/

/-- The relation holds across all that a cycle does in a stopped world. -/
structure AcrossCycles (R : Heap → Heap → Prop) : Prop where
  quiet : ∀ {h h'}, h.tlabs.buffers.size ≤ h'.tlabs.buffers.size → h' = { h with
    memory := h'.memory, tlabs := h'.tlabs, live := h'.live, phase := h'.phase, collections := h'.collections,
    lastCycle := h'.lastCycle, log := h'.log } → R h h'
  sweep : ∀ h, R h { h with phase := .sweeping, space := (h.space.sweep h.memory h.live).2 }

namespace AcrossCycles

variable {R : Heap → Heap → Prop}

theorem markLive (hR : AcrossCycles R) (threadRoots : List Address) : Leads R (markLive threadRoots) := by
  intro h
  unfold Heap.markLive
  simp only [EStateM.run_bind, EStateM.run_get, EStateM.run_set]
  cases (Marker.run h.live h.memory h.encoding (h.roots.enumerate threadRoots)).1 <;>
    exact hR.quiet (Nat.le_refl _) rfl

theorem sweepDead (hR : AcrossCycles R) : Leads R sweepDead := by
  intro h
  unfold Heap.sweepDead
  simp only [EStateM.run_bind, EStateM.run_get, EStateM.run_set]
  cases (h.space.sweep h.memory h.live).1 <;> exact hR.sweep h

theorem prologue (hR : AcrossCycles R) {h h' : Heap} {waste : Nat} (hpro : h.prologue = .ok (waste, h')) : R h h' := by
  unfold Heap.prologue at hpro
  obtain ⟨live, -, hpro⟩ := except_bind_eq_ok hpro
  cases hpro
  exact hR.quiet (Nat.le_of_eq (h.tlabs.size_retireAll h.memory).symm) rfl

theorem runCycle [IsTrans Heap R] (hR : AcrossCycles R) (cause : Cause) (threadRoots : List Address) :
    Leads R (runCycle cause threadRoots) := by
  intro h
  unfold Heap.runCycle
  simp only [EStateM.run_bind, EStateM.run_get]
  cases hpro : h.prologue with
  | error e => exact hR.quiet (Nat.le_refl _) rfl
  | ok x =>
    obtain ⟨waste, h₁⟩ := x
    refine IsTrans.trans _ _ _ (hR.prologue hpro) ((hR.markLive threadRoots).bind (fun marked => ?_) h₁)
    exact hR.sweepDead.bind fun swept _ => hR.quiet (Nat.le_refl _) rfl

end AcrossCycles

/-! ## Requests -/

theorem collect_eq {cause : Cause} (hc : cause.Cycles) (id : Option MutatorId) :
    collect id cause = do return (← collectNow id cause).map fun _ => () := by
  rcases hc with rfl | rfl <;> rfl

/-- The relation holds across cycles and walks, and where mutators come, go and change what they hold. -/
structure AcrossRequests (R : Heap → Heap → Prop) : Prop extends AcrossAllocations R where
  collectNow : ∀ id cause, Leads R (collectNow id cause)
  iterate : ∀ id, Leads R (iterate id)
  newMutator : Leads R newMutator
  dropMutator : ∀ id, Leads R (dropMutator id)
  updateRoots : ∀ h id f, R h (updateRoots h id f)

namespace AcrossRequests

variable {R : Heap → Heap → Prop} [Std.Refl R] [IsTrans Heap R]

theorem collectForAllocation (hR : AcrossRequests R) (id : Option MutatorId) : Leads R (collectForAllocation id) :=
  (hR.collectNow id _).bind fun _ => .pure _

theorem attemptTwice (hR : AcrossRequests R) {id : Option MutatorId} {attempt : HeapM (Option α)} {refusal : HeapM HeapError}
    (ha : Leads R attempt) (hr : Leads R refusal) : Leads R (attemptTwice id attempt refusal) := by
  refine ha.bind fun a => ?_
  cases a with
  | some a => exact .pure _
  | none =>
  refine (hR.collectForAllocation id).bind fun _ => ha.bind fun a => ?_
  cases a with
  | some a => exact .pure _
  | none => exact hr.bind fun _ => .pure _

theorem claimOrCollect (hR : AcrossRequests R) (words : Nat) {use : Address → HeapM α} (hu : ∀ a, Leads R (use a)) :
    Leads R (claimOrCollect words use) := by
  refine .get_bind fun h => ?_
  cases h.space.canFit words with
  | false => exact .pure _
  | true => exact hR.attemptTwice (hR.claim words hu) (AcrossAllocations.refuse words)

theorem allocateFor (hR : AcrossRequests R) (id : MutatorId) (words : Nat) : Leads R (allocateFor id words) := by
  rw [allocateFor_eq]
  refine .get_bind fun h => (Leads.lift _).bind fun m => .get_bind fun h => ?_
  cases h.space.canFit words with
  | false => exact .pure _
  | true =>
  refine .get_bind fun h => (Leads.lift _).bind fun words => ?_
  refine .bind (.modifyGet fun h => hR.writes (h.writes_bump m.tlab words)) fun a => ?_
  cases a with
  | some a => exact .pure _
  | none => exact hR.attemptTwice (hR.refillOrCarve m words) (.pure _)

theorem collect (hR : AcrossRequests R) (id : Option MutatorId) (cause : Cause) : Leads R (collect id cause) := by
  by_cases hc : cause.Cycles
  · rw [collect_eq hc]
    exact (hR.collectNow id cause).bind fun _ => .pure _
  · exact hR.note hc id

theorem collectTogether (hR : AcrossRequests R) (cause : Cause) : Leads R (collectTogether cause) := by
  refine .get_bind fun h => ?_
  cases h.mutators with
  | nil => exact .pure _
  | cons leader parked => exact (hR.collectNow _ cause).bind fun _ => .pure _

end AcrossRequests

end Heap

namespace Request

variable {R : Heap → Heap → Prop} [Std.Refl R] [IsTrans Heap R]

/-- **What holds across each change holds across every request**, also where a fault stops it. -/
theorem leads (hR : Heap.AcrossRequests R) (r : Request) : Leads R r.op := by
  cases r with
  | allocate words =>
    rw [op, Heap.allocate_eq]
    exact (hR.claimOrCollect words (hR.fillClaimed words)).bind fun _ => .pure _
  | newTlab minWords requestedWords =>
    rw [op, Heap.newTlab_eq]
    refine Leads.bind (.get_bind fun h => (Leads.lift _).bind fun words => ?_) fun _ => .pure _
    exact hR.claimOrCollect words (hR.installNew words)
  | allocateIn id words => exact (hR.allocateIn id words).bind fun _ => .pure _
  | dropTlab id =>
    exact .bind (.modify fun h => hR.dropTlab h id) fun _ => .pure _
  | carve words => exact (hR.carve words).bind fun _ => .pure _
  | newMutator => exact hR.newMutator.bind fun _ => .pure _
  | allocateFor id words => exact (hR.allocateFor id words).bind fun _ => .pure _
  | dropMutator id => exact (hR.dropMutator id).bind fun _ => .pure _
  | collect id cause => exact (hR.collect id cause).bind fun _ => .pure _
  | collectFull =>
    have hfull : Leads R Heap.collectFull := .get_bind fun h => hR.collect none h.cause
    exact hfull.bind fun _ => .pure _
  | collectTogether cause _ => exact (hR.collectTogether cause).bind fun _ => .pure _
  | iterate id => exact (hR.iterate id).bind fun _ => .pure _
  | look => exact .get_bind fun h => .pure _
  | setRef obj i target => exact (hR.setRef obj i target).bind fun _ => .pure _
  | hold id f => exact .bind (.modify fun h => hR.updateRoots h id f) fun _ => .pure _
  | write f | reroot f | permit f =>
    exact .bind (.modify fun _ => hR.writes ⟨Nat.le_refl _, rfl, rfl⟩) fun _ => .pure _

theorem serve_leads (hR : Heap.AcrossRequests R) (r : Request) (h : Heap) :
    (r.serve ⟨h, false⟩).2.locked = false ∧ R h (r.serve ⟨h, false⟩).2.heap := by
  have hleads := r.leads hR h
  rw [r.serve_free]
  cases hrun : r.op.run h <;> rw [hrun] at hleads <;> exact ⟨rfl, hleads⟩

/-- What holds across requests holds across all of a run. -/
theorem serveAll_leads (hR : Heap.AcrossRequests R) : ∀ (rs : List Request) (h : Heap),
    (serveAll rs ⟨h, false⟩).2.locked = false ∧ R h (serveAll rs ⟨h, false⟩).2.heap
  | [], h => ⟨rfl, Std.Refl.refl h⟩
  | r :: rs, h => by
    obtain ⟨hfree, hfirst⟩ := r.serve_leads hR h
    rw [serveAll]
    generalize hserve : r.serve ⟨h, false⟩ = x at hfree hfirst
    obtain ⟨a, k, locked⟩ := x
    obtain rfl : locked = false := hfree
    obtain ⟨hfree', hrest⟩ := serveAll_leads hR rs k
    exact ⟨hfree', IsTrans.trans _ _ _ hfirst hrest⟩

end Request

end MarkSweep
