import MarkSweep.Proofs.Heap.Blind
import MarkSweep.Proofs.Heap.Orderly
/-!
# Aborted cycles — a request whose bitmap is refused

Which requests make a cycle start, and how each of them is answered where its bitmap cannot be committed: a collection
reports the abort, and an allocation tries once more on the same free list and reports that it is out of memory
(`Request.AsksFor`).  The heap is left as it was but for the epoch and what is on record (`Heap.aborted`).
-/
namespace MarkSweep

variable {α : Type}

/-- What a collection reports whose bitmap could not be committed. -/
def HeapError.uncommitted : HeapError := .cycleAborted "marking bitmap could not be committed"

namespace Heap

/-- The heap after an aborted cycle: one more epoch is over, and the cause and the abort are on record. -/
def aborted (h : Heap) (cause : Cause) : Heap :=
  { h with cause, safepoint := { h.safepoint with epoch := h.safepoint.epoch + 1 } }.note
    (.cycleAborted cause (.commit h.live.storage.purpose h.live.storage.bytes))

/-- Everyone stops for an operation that `id` asks for. -/
def Stops (h : Heap) (id : Option MutatorId) : Prop := ∃ x, h.halt id = .ok x

/-- A cycle that `id` asks for starts, and its bitmap is refused. -/
structure Refuses (h : Heap) (id : Option MutatorId) : Prop where
  stops : h.Stops id
  refused : h.granted = false

variable {h : Heap} {id : Option MutatorId} {cause : Cause}

theorem aborted_view (h : Heap) (cause : Cause) : (h.aborted cause).view = h.view := note_abort_view _ rfl

theorem aborts_aborted (h : Heap) (cause : Cause) : (h.aborted cause).aborts = h.aborts + 1 := by
  unfold aborts aborted note
  simp only [Array.countP_push, Notice.isAbort, if_true]

/-- **The world stops** where no fault left it stopped, for everyone that is registered, as long as all references that the
mutators hold can be loaded. -/
theorem Orderly.stops (ho : h.Orderly) (hreq : h.safepoint.requested = false)
    (hload : ∀ m ∈ h.mutators, m.roots.Loads h.encoding) (hid : ∀ i, id = some i → ∃ m ∈ h.mutators, m.id = i) : h.Stops id := by
  obtain ⟨r, s, s', hrequester, hrequest, hpark, hrunning, -⟩ := park_spec (ho.calm hreq).1 ho.mutators hload id hid
  refine ⟨(r, s'.threadRoots, { s' with threadRoots := [] }), ?_⟩
  have hbegin : s'.begin? = some (s'.threadRoots, { s' with threadRoots := [] }) := by
    rw [Safepoint.begin?, if_pos hrunning]
  unfold halt
  simp only [hrequester, hrequest, hpark, hbegin, bind, Except.bind, pure, Except.pure, Bool.not_true, Bool.false_eq_true,
    if_false]

/-! ## Cycles -/

/-- **An aborted cycle reports so and changes nothing.** -/
theorem collectNow_refused (ho : h.Orderly) (hr : h.Refuses id) (cause : Cause) :
    (collectNow id cause).run h = .ok (.error .uncommitted) (h.aborted cause) := by
  obtain ⟨⟨⟨r, roots, s⟩, hhalt⟩, hg⟩ := hr
  obtain ⟨hreq, -, hfinish⟩ := halt_spec (fun hreq => (ho.calm hreq).1) hhalt
  obtain ⟨-, hphase, -⟩ := ho.calm hreq
  have hhalt' : ({ h with cause } : Heap).halt id = .ok (r, roots, s) := hhalt
  unfold collectNow
  rw [run_bind_of_ok (EStateM.run_modify _ h), stopTheWorld_of_halt hhalt',
    runCycle_refused (h := { h with cause, safepoint := s }) hg]
  simp only [note, hfinish, aborted, hphase]
  rfl

/-- The log has no other aborts than before. -/
def SameAborts (h h' : Heap) : Prop := h'.aborts = h.aborts

instance : Std.Refl SameAborts := ⟨fun _ => rfl⟩

instance : IsTrans Heap SameAborts := ⟨fun _ _ _ a b => b.trans a⟩

theorem markLive_sameAborts (threadRoots : List Address) : Leads SameAborts (markLive threadRoots) := by
  intro h
  unfold markLive
  simp only [EStateM.run_bind, EStateM.run_get, EStateM.run_set]
  cases (Marker.run h.live h.memory h.encoding (h.roots.enumerate threadRoots)).1 <;> rfl

theorem sweepDead_sameAborts : Leads SameAborts sweepDead := by
  intro h
  unfold sweepDead
  simp only [EStateM.run_bind, EStateM.run_get, EStateM.run_set]
  cases (h.space.sweep h.memory h.live).1 <;> rfl

/-- A cycle that gets its bitmap is not aborted, though a fault may stop it. -/
theorem runCycle_sameAborts (hg : h.granted = true) (cause : Cause) (threadRoots : List Address) :
    h.SameAborts (finalState ((runCycle cause threadRoots).run h)) := by
  unfold runCycle
  rw [run_bind_of_ok (EStateM.run_get h), prologue_eq hg]
  simp only
  rw [run_bind_of_ok (EStateM.run_set _ _)]
  refine IsTrans.trans h _ _ ?_ ((markLive_sameAborts threadRoots).bind (fun marked => sweepDead_sameAborts.bind fun swept => ?_) _)
  · rfl
  · refine Leads.bind (.modify fun h => ?_) fun _ => .bind (.modify fun h => ?_) fun _ => .pure _
    · rfl
    · exact (writes_note { h with collections := h.collections + 1, lastCycle := _ } rfl).aborts

theorem stopTheWorld_sameAborts {op : List Address → HeapM α}
    (hop : ∀ roots s, h.SameAborts (finalState ((op roots).run { h with safepoint := s }))) :
    h.SameAborts (finalState ((stopTheWorld id op).run h)) :=
  stopTheWorld_final (Std.Refl.refl h) hop fun same => same

theorem collectNow_eq (id : Option MutatorId) (cause : Cause) (h : Heap) :
    (collectNow id cause).run h = (stopTheWorld id (runCycle cause)).run { h with cause } := rfl

/-- No other cycle is aborted. -/
theorem collectNow_sameAborts (hno : ¬h.Refuses id) (cause : Cause) :
    h.SameAborts (finalState ((collectNow id cause).run h)) := by
  have hcause : h.SameAborts { h with cause } := rfl
  rw [collectNow_eq]
  refine IsTrans.trans _ _ _ hcause ?_
  by_cases hg : h.granted = true
  · exact stopTheWorld_sameAborts fun roots s => runCycle_sameAborts (h := { h with cause, safepoint := s }) hg cause roots
  · cases hhalt : h.halt id with
    | error f =>
      have hhalt' : ({ h with cause } : Heap).halt id = .error f := hhalt
      rw [stopTheWorld_of_error hhalt']
      rfl
    | ok x => exact absurd ⟨⟨x, hhalt⟩, Bool.not_eq_true _ ▸ hg⟩ hno

/-! ## Attempts -/

/-- An attempt that comes to nothing changes nothing. -/
theorem carve_none {words : Nat} {h' : Heap} (hrun : (carve words).run h = .ok none h') :
    h' = h ∧ h.space.allocate words = .ok (none, h.space) := by
  unfold carve at hrun
  rw [run_bind_of_ok (EStateM.run_get h)] at hrun
  cases ha : h.space.allocate words with
  | error f => rw [ha] at hrun; cases hrun
  | ok x =>
    obtain ⟨a, space⟩ := x
    rw [ha] at hrun
    cases hrun
    have hspace : space = h.space := by
      unfold Space.allocate at ha
      split at ha
      · cases ha; rfl
      obtain ⟨adjusted, -, ha⟩ := except_bind_eq_ok ha
      obtain ⟨taken, -, ha⟩ := except_bind_eq_ok ha
      split at ha
      · cases ha; rfl
      · obtain ⟨stop, -, ha⟩ := except_bind_eq_ok ha
        cases ha
    rw [hspace]
    exact ⟨rfl, rfl⟩

theorem carve_of_full {words : Nat} (hfull : h.space.allocate words = .ok (none, h.space)) :
    (carve words).run h = .ok none h := by
  unfold carve
  rw [run_bind_of_ok (EStateM.run_get h), hfull]
  rfl

/-- A space that has no chunk for some words has still adjusted them. -/
theorem adjust_of_full {words : Nat} (hfit : h.space.canFit words = true)
    (hfull : h.space.allocate words = .ok (none, h.space)) : ∃ adjusted, h.adjust words = .ok adjusted := by
  unfold Space.allocate at hfull
  rw [hfit] at hfull
  obtain ⟨adjusted, hadjust, -⟩ := except_bind_eq_ok hfull
  exact ⟨adjusted, hadjust⟩

theorem claim_none {words : Nat} {use : Address → HeapM α} {h' : Heap} (hrun : (claim words use).run h = .ok none h') :
    (carve words).run h = .ok none h' := by
  unfold claim at hrun
  obtain ⟨a, h₁, hcarve, hrun⟩ := run_bind_eq_ok hrun
  cases a with
  | none => cases hrun; exact hcarve
  | some a =>
    obtain ⟨b, h₂, -, hrun⟩ := run_bind_eq_ok hrun
    cases hrun

theorem claim_of_none {words : Nat} (use : Address → HeapM α) (hrun : (carve words).run h = .ok none h) :
    (claim words use).run h = .ok none h := by
  unfold claim
  rw [run_bind_of_ok hrun]
  rfl

theorem carve_tlabs {words : Nat} {a : Option Address} {h' : Heap} (hrun : (carve words).run h = .ok a h') :
    h'.tlabs = h.tlabs := by
  unfold carve at hrun
  rw [run_bind_of_ok (EStateM.run_get h)] at hrun
  cases ha : h.space.allocate words with
  | error f => rw [ha] at hrun; cases hrun
  | ok x => rw [ha] at hrun; cases hrun; rfl

/-- A new buffer grants the words that it was carved for, at its start. -/
theorem bump_install {t : TlabId} (ht : t < h.tlabs.buffers.size) (start : Address) {size words : Nat} (hle : words ≤ size) :
    ∃ h', (h.installTlab t start size).bump t words = (some start, h') ∧ h'.space = h.space ∧
      h'.tlabs.get t = { (h.tlabs.get t).install start size with
        top := start + words * wordBytes, allocatedWords := (h.tlabs.get t).allocatedWords + words } ∧
      ∀ id, id ≠ t → h'.tlabs.get id = h.tlabs.get id := by
  have hget : (h.installTlab t start size).tlabs.get = fun id =>
      if id = t then (h.tlabs.get t).install start size else h.tlabs.get id := funext fun id => TlabRegistry.get_set ht _ id
  have ht' : t < (h.installTlab t start size).tlabs.buffers.size := by
    rwa [show (h.installTlab t start size).tlabs.buffers.size = h.tlabs.buffers.size from Array.size_setIfInBounds]
  have hfree : ((h.tlabs.get t).install start size).freeWords = size := by
    unfold Tlab.install Tlab.freeWords
    rw [Nat.add_sub_cancel_left, Nat.mul_div_cancel _ (by decide)]
  unfold bump Tlab.allocate
  rw [hget]
  simp only [if_true, hfree]
  rw [if_neg (Nat.not_lt_of_le hle)]
  refine ⟨_, rfl, rfl, ?_, fun id hne => ?_⟩
  · rw [TlabRegistry.get_set ht', if_pos rfl]
    rfl
  · rw [TlabRegistry.get_set ht', if_neg hne, hget]
    exact if_neg hne

/-- The words of a new buffer are enough for the request that it was made for. -/
theorem refillOrCarve_none {m : Mutator} (hm : m.tlab < h.tlabs.buffers.size) {words : Nat} {h' : Heap}
    (hrun : (refillOrCarve m words).run h = .ok none h') : h' = h := by
  unfold refillOrCarve at hrun
  rw [run_bind_of_ok (EStateM.run_get h)] at hrun
  split at hrun
  case isFalse => exact (carve_none hrun).1
  rw [run_bind_of_ok (EStateM.run_get h)] at hrun
  obtain ⟨size, h₁, hsize, hrun⟩ := run_bind_eq_ok hrun
  cases hs : h.tlabSizeFor words m.tlabWords with
  | error f => rw [hs] at hsize; cases hsize
  | ok size' =>
  rw [hs] at hsize
  cases hsize
  obtain ⟨a, h₂, hcarve, hrun⟩ := run_bind_eq_ok hrun
  cases a with
  | none =>
    have hrun : (carve words).run h₂ = .ok none h' := hrun
    exact (carve_none hrun).1.trans (carve_none hcarve).1
  | some start =>
    have hle := le_tlabSizeFor hs
    have hsize : m.tlab < (h₂.retireTlab m.tlab).tlabs.buffers.size := by
      rw [show (h₂.retireTlab m.tlab).tlabs.buffers.size = h₂.tlabs.buffers.size from TlabRegistry.size_retire _ _ _,
        carve_tlabs hcarve]
      exact hm
    obtain ⟨h₃, hbump, -⟩ := bump_install hsize start hle
    have hrun : (modifyGet fun h => ((h.retireTlab m.tlab).installTlab m.tlab start size).bump m.tlab words : HeapM _).run h₂ =
      .ok none h' := hrun
    rw [EStateM.run_modifyGet, hbump] at hrun
    cases hrun

theorem attemptTwice_refused {attempt : HeapM (Option α)} (refusal : HeapM HeapError) (ho : h.Orderly) (hr : h.Refuses id)
    (hblind : Blind attempt) (hkeep : ∀ k k', k.tlabs = h.tlabs → attempt.run k = .ok none k' → k' = k)
    (hrun : attempt.run h = .ok none h) :
    (attemptTwice id attempt refusal).run h = (do return .error (← refusal) : HeapM _).run (h.aborted .allocationFailure) := by
  have hagain : attempt.run (h.aborted .allocationFailure) = .ok none (h.aborted .allocationFailure) := by
    have hseen := hblind.eq (h.aborted_view .allocationFailure)
    rw [hrun] at hseen
    cases hsecond : attempt.run (h.aborted .allocationFailure) with
    | error f k => rw [hsecond] at hseen; cases hseen
    | ok a k =>
      rw [hsecond] at hseen
      injection hseen with ha
      subst ha
      rw [hkeep (h.aborted .allocationFailure) k rfl hsecond]
  unfold attemptTwice collectForAllocation
  rw [run_bind_of_ok hrun]
  simp only [bind_assoc, pure_bind]
  rw [run_bind_of_ok (collectNow_refused ho hr _), run_bind_of_ok hagain]

theorem attemptTwice_sameAborts {attempt : HeapM (Option α)} {refusal : HeapM HeapError} (ha : Leads Rests attempt)
    (hq : Leads Rests refusal) (hkeep : ∀ h', attempt.run h = .ok none h' → h' = h)
    (hno : attempt.run h = .ok none h → ¬h.Refuses id) :
    h.SameAborts (finalState ((attemptTwice id attempt refusal).run h)) := by
  have hfirst := ha h
  unfold attemptTwice
  rw [EStateM.run_bind]
  cases hrun : attempt.run h with
  | error f h₁ => rw [hrun] at hfirst; exact hfirst.aborts
  | ok a h₁ =>
  cases a with
  | some a => rw [hrun] at hfirst; exact hfirst.aborts
  | none =>
  obtain rfl := hkeep h₁ hrun
  have hcycle := collectNow_sameAborts (hno hrun) .allocationFailure
  unfold collectForAllocation
  simp only [bind_assoc, pure_bind]
  rw [EStateM.run_bind]
  cases hrun' : (collectNow id .allocationFailure).run h₁ with
  | error f h₂ => rw [hrun'] at hcycle; exact hcycle
  | ok c h₂ =>
  rw [hrun'] at hcycle
  refine IsTrans.trans _ _ _ hcycle (Leads.mono Rests.aborts (ha.bind fun a => ?_) h₂)
  cases a with
  | some a => exact .pure _
  | none => exact hq.bind fun _ => .pure _

theorem refuse_run {words adjusted : Nat} (hsize : h.adjust words = .ok adjusted) :
    (refuse words).run h = .ok (.outOfMemory adjusted) h := by
  unfold refuse
  rw [run_bind_of_ok (EStateM.run_get h), hsize]
  rfl

/-- A full space: no chunk has room for words that the empty space could hold, which are `adjusted` ones in whole
granules. -/
structure Full (h : Heap) (words adjusted : Nat) : Prop where
  fits : h.space.canFit words = true
  full : h.space.allocate words = .ok (none, h.space)
  size : h.adjust words = .ok adjusted

theorem claimOrCollect_refused {words adjusted : Nat} {use : Address → HeapM α} (hu : ∀ a, Blind (use a)) (ho : h.Orderly)
    (hr : h.Refuses none) (hfull : h.Full words adjusted) :
    (claimOrCollect words use).run h = .ok (.error (.outOfMemory adjusted)) (h.aborted .allocationFailure) := by
  unfold claimOrCollect
  rw [run_bind_of_ok (EStateM.run_get h), hfull.fits]
  have hnone := claim_of_none use (carve_of_full hfull.full)
  have htwice := attemptTwice_refused (refuse words) ho hr (claim_blind words hu)
    (fun k k' _ hrun => (carve_none (claim_none hrun)).1) hnone
  have hsize : (h.aborted .allocationFailure).adjust words = .ok adjusted := hfull.size
  rw [run_bind_of_ok (refuse_run hsize)] at htwice
  exact htwice

theorem allocate_refused {words adjusted : Nat} (ho : h.Orderly) (hr : h.Refuses none) (hfull : h.Full words adjusted) :
    (allocate words).run h = .ok (.error (.outOfMemory adjusted)) (h.aborted .allocationFailure) := by
  rw [allocate_eq]
  exact claimOrCollect_refused (fillClaimed_blind words) ho hr hfull

theorem newTlab_refused {minWords requestedWords words adjusted : Nat} (ho : h.Orderly) (hr : h.Refuses none)
    (hrequest : h.tlabSizeFor minWords requestedWords = .ok words) (hfull : h.Full words adjusted) :
    (newTlab minWords requestedWords).run h = .ok (.error (.outOfMemory adjusted)) (h.aborted .allocationFailure) := by
  rw [newTlab_eq, run_bind_of_ok (EStateM.run_get h), hrequest, run_bind_of_ok (run_lift_ok _ _)]
  exact claimOrCollect_refused (installNew_blind words) ho hr hfull

/-- A mutator has no room for some words, which are `adjusted` ones in whole granules: neither its buffer nor a new one nor
the free list gives them. -/
structure FullFor (h : Heap) (id : MutatorId) (words adjusted : Nat) : Prop where
  fits : h.space.canFit words = true
  size : h.adjust words = .ok adjusted
  mutator : ∃ m, h.mutator id = .ok m ∧ h.bump m.tlab adjusted = (none, h) ∧ (refillOrCarve m adjusted).run h = .ok none h

theorem allocateFor_refused {i : MutatorId} {words adjusted : Nat} (ho : h.Orderly) (hr : h.Refuses (some i))
    (hfull : h.FullFor i words adjusted) :
    (allocateFor i words).run h = .ok (.error (.outOfMemory adjusted)) (h.aborted .allocationFailure) := by
  obtain ⟨hfits, hsize, m, hm, hbump, hrefill⟩ := hfull
  have htwice := attemptTwice_refused (pure (.outOfMemory adjusted)) ho hr (refillOrCarve_blind m adjusted)
    (fun k k' htlabs hrun => refillOrCarve_none (by rw [htlabs]; exact ho.owned m (mutator_eq_ok hm).1) hrun) hrefill
  have hgrant : (modifyGet (·.bump m.tlab adjusted) : HeapM _).run h = .ok none h := by rw [EStateM.run_modifyGet, hbump]
  rw [allocateFor_eq, run_bind_of_ok (EStateM.run_get h), hm, run_bind_of_ok (run_lift_ok _ _),
    run_bind_of_ok (EStateM.run_get h), hfits]
  simp only [Bool.not_true, Bool.false_eq_true, if_false]
  rw [run_bind_of_ok (EStateM.run_get h), hsize, run_bind_of_ok (run_lift_ok _ _), run_bind_of_ok hgrant]
  exact htwice

theorem collect_refused (ho : h.Orderly) (hr : h.Refuses id) (hc : cause.Cycles) :
    (collect id cause).run h = .ok (.error .uncommitted) (h.aborted cause) := by
  rw [collect_eq hc, run_bind_of_ok (collectNow_refused ho hr cause)]
  rfl

theorem collectTogether_refused {leader : Mutator} {parked : List Mutator} (hm : h.mutators = leader :: parked)
    (ho : h.Orderly) (hr : h.Refuses (some leader.id)) (cause : Cause) :
    (collectTogether cause).run h = .ok parked.length (h.aborted cause) := by
  unfold collectTogether
  rw [run_bind_of_ok (EStateM.run_get h), hm]
  simp only
  rw [run_bind_of_ok (collectNow_refused ho hr cause)]
  rfl

/-! ## Nothing else is aborted -/

theorem claimOrCollect_sameAborts {words : Nat} {use : Address → HeapM α} (hu : ∀ a, Leads Rests (use a))
    (hno : ∀ adjusted, h.Full words adjusted → ¬h.Refuses none) :
    h.SameAborts (finalState ((claimOrCollect words use).run h)) := by
  unfold claimOrCollect
  rw [run_bind_of_ok (EStateM.run_get h)]
  by_cases hfit : h.space.canFit words = true
  · rw [hfit]
    refine attemptTwice_sameAborts (rests_across.claim words hu) (AcrossAllocations.refuse words)
      (fun h' hrun => (carve_none (claim_none hrun)).1) fun hrun => ?_
    obtain ⟨-, hfull⟩ := carve_none (claim_none hrun)
    obtain ⟨adjusted, hsize⟩ := adjust_of_full hfit hfull
    exact hno adjusted ⟨hfit, hfull, hsize⟩
  · rw [Bool.not_eq_true] at hfit
    rw [hfit]
    rfl

theorem newTlab_sameAborts {minWords requestedWords : Nat}
    (hno : ∀ words adjusted, h.tlabSizeFor minWords requestedWords = .ok words → h.Full words adjusted → ¬h.Refuses none) :
    h.SameAborts (finalState ((newTlab minWords requestedWords).run h)) := by
  rw [newTlab_eq, run_bind_of_ok (EStateM.run_get h)]
  cases hsize : h.tlabSizeFor minWords requestedWords with
  | error f => rfl
  | ok words => exact claimOrCollect_sameAborts (rests_across.installNew words) fun adjusted => hno words adjusted hsize

theorem allocateFor_sameAborts {i : MutatorId} {words : Nat} (ho : h.Orderly)
    (hno : ∀ adjusted, h.FullFor i words adjusted → ¬h.Refuses (some i)) :
    h.SameAborts (finalState ((allocateFor i words).run h)) := by
  rw [allocateFor_eq, run_bind_of_ok (EStateM.run_get h)]
  cases hm : h.mutator i with
  | error f => rfl
  | ok m =>
  rw [run_bind_of_ok (run_lift_ok _ _), run_bind_of_ok (EStateM.run_get h)]
  by_cases hfit : h.space.canFit words = true
  case neg =>
    rw [Bool.not_eq_true] at hfit
    rw [hfit]
    rfl
  rw [hfit]
  simp only [Bool.not_true, Bool.false_eq_true, if_false]
  rw [run_bind_of_ok (EStateM.run_get h)]
  cases hsize : h.adjust words with
  | error f => rfl
  | ok adjusted =>
  rw [run_bind_of_ok (run_lift_ok _ _), EStateM.run_bind, EStateM.run_modifyGet]
  unfold bump
  cases hgrant : (h.tlabs.get m.tlab).allocate adjusted with
  | some x => rfl
  | none =>
  have hbump : h.bump m.tlab adjusted = (none, h) := by rw [bump, hgrant]
  have hknown := ho.owned m (mutator_eq_ok hm).1
  exact attemptTwice_sameAborts (rests_across.refillOrCarve m adjusted) (.pure _) (fun h' hrun => refillOrCarve_none hknown hrun)
    fun hrun => hno adjusted ⟨hfit, hsize, m, hm, hbump, hrun⟩

theorem collect_sameAborts (hno : cause.Cycles → ¬h.Refuses id) : h.SameAborts (finalState ((collect id cause).run h)) := by
  by_cases hc : cause.Cycles
  · have hcycle := collectNow_sameAborts (hno hc) cause
    rw [collect_eq hc, EStateM.run_bind]
    cases hrun : (collectNow id cause).run h <;> rw [hrun] at hcycle <;> exact hcycle
  · exact (rests_across.note hc id h).aborts

theorem collectTogether_sameAborts (hno : ∀ leader parked, h.mutators = leader :: parked → ¬h.Refuses (some leader.id)) :
    h.SameAborts (finalState ((collectTogether cause).run h)) := by
  unfold collectTogether
  rw [run_bind_of_ok (EStateM.run_get h)]
  cases hm : h.mutators with
  | nil => rfl
  | cons leader parked =>
    have hcycle := collectNow_sameAborts (hno leader parked hm) cause
    simp only
    rw [EStateM.run_bind]
    cases hrun : (collectNow (some leader.id) cause).run h <;> rw [hrun] at hcycle <;> exact hcycle

theorem iterate_sameAborts (id : Option MutatorId) : Leads SameAborts (iterate id) := fun h => by
  rw [iterate_eq]
  exact stopTheWorld_sameAborts fun roots s => (rests_across.visit { h with safepoint := s }).aborts

theorem newMutator_sameAborts : Leads SameAborts newMutator := fun h => by
  unfold newMutator
  rw [run_bind_of_ok (EStateM.run_get h)]
  cases h.safepoint.register with
  | none => rfl
  | some s =>
  simp only
  cases h.adjust (h.settings.minTlabSize / wordBytes) with
  | error f => rfl
  | ok minWords =>
  rw [run_bind_of_ok (run_lift_ok _ _)]
  cases h.tlabSizeFor (min minWords h.maxTlabWords) (h.settings.tlabSize / wordBytes) <;> rfl

theorem dropMutator_sameAborts (id : MutatorId) : Leads SameAborts (dropMutator id) := by
  refine .get_bind fun h => (Leads.lift _).bind fun m => .bind (.modify fun h => rfl) fun _ h => ?_
  rw [run_bind_of_ok (EStateM.run_get h)]
  cases h.safepoint.unregister <;> rfl

end Heap

/-! ## Requests -/

/-- **What asks for a cycle**: the request makes a cycle start for a cause, in the name of a mutator or of an external
thread, and this is its answer if that cycle is aborted. -/
inductive Request.AsksFor (h : Heap) : Request → Option MutatorId → Cause → Answer → Prop
  | collect {id : Option MutatorId} {cause : Cause} (cycles : cause.Cycles) :
    AsksFor h (.collect id cause) id cause (.collected (.error .uncommitted))
  | collectFull (cycles : h.cause.Cycles) : AsksFor h .collectFull none h.cause (.collected (.error .uncommitted))
  | collectTogether {leader : Mutator} {parked : List Mutator} {cause : Cause} (cycles : cause.Cycles)
    (mutators : h.mutators = leader :: parked) :
    AsksFor h (.collectTogether cause cycles) (some leader.id) cause (.together parked.length)
  | allocate {words adjusted : Nat} (full : h.Full words adjusted) :
    AsksFor h (.allocate words) none .allocationFailure (.granted (.error (.outOfMemory adjusted)))
  | newTlab {minWords requestedWords words adjusted : Nat} (request : h.tlabSizeFor minWords requestedWords = .ok words)
    (full : h.Full words adjusted) :
    AsksFor h (.newTlab minWords requestedWords) none .allocationFailure (.buffer (.error (.outOfMemory adjusted)))
  | allocateFor {id : MutatorId} {words adjusted : Nat} (full : h.FullFor id words adjusted) :
    AsksFor h (.allocateFor id words) (some id) .allocationFailure (.granted (.error (.outOfMemory adjusted)))

namespace Request

variable {h : Heap} {r : Request} {id : Option MutatorId} {cause : Cause} {a : Answer}

/-- **A request whose cycle is aborted** is answered with the abort or, where it was for words, with their lack. -/
theorem op_refused (ho : h.Orderly) (asks : r.AsksFor h id cause a) (hr : h.Refuses id) :
    r.op.run h = .ok a (h.aborted cause) := by
  cases asks with
  | collect cycles => exact run_bind_of_ok (Heap.collect_refused ho hr cycles)
  | collectFull cycles =>
    have hfull : Heap.collectFull.run h = .ok (.error .uncommitted) (h.aborted h.cause) := Heap.collect_refused ho hr cycles
    exact run_bind_of_ok hfull
  | collectTogether cycles mutators => exact run_bind_of_ok (Heap.collectTogether_refused mutators ho hr cause)
  | allocate full => exact run_bind_of_ok (Heap.allocate_refused ho hr full)
  | newTlab request full => exact run_bind_of_ok (Heap.newTlab_refused ho hr request full)
  | allocateFor full => exact run_bind_of_ok (Heap.allocateFor_refused ho hr full)

/-- The end of a request, as far as it is the end of the operation in it. -/
theorem sameAborts_answer {α : Type} {x : HeapM α} (f : α → Answer) (hx : h.SameAborts (finalState (x.run h))) :
    h.SameAborts (finalState ((do return f (← x) : HeapM Answer).run h)) := by
  rw [EStateM.run_bind]
  cases hrun : x.run h <;> rw [hrun] at hx <;> exact hx

/-- **No other request aborts a cycle.** -/
theorem op_sameAborts (ho : h.Orderly) (hno : ∀ id cause a, r.AsksFor h id cause a → ¬h.Refuses id) :
    h.SameAborts (finalState (r.op.run h)) := by
  cases r with
  | allocate words =>
    refine sameAborts_answer .granted ?_
    rw [Heap.allocate_eq]
    exact Heap.claimOrCollect_sameAborts (Heap.rests_across.fillClaimed words) fun adjusted full => hno _ _ _ (.allocate full)
  | newTlab minWords requestedWords =>
    exact sameAborts_answer .buffer (Heap.newTlab_sameAborts fun words adjusted size full => hno _ _ _ (.newTlab size full))
  | allocateIn id words => exact sameAborts_answer .found (Heap.rests_across.allocateIn id words h).aborts
  | dropTlab id => rfl
  | carve words => exact sameAborts_answer .found (Heap.rests_across.carve words h).aborts
  | newMutator => exact sameAborts_answer .mutator (Heap.newMutator_sameAborts h)
  | allocateFor id words =>
    exact sameAborts_answer .granted (Heap.allocateFor_sameAborts ho fun adjusted full => hno _ _ _ (.allocateFor full))
  | dropMutator id => exact sameAborts_answer (fun _ => .done) (Heap.dropMutator_sameAborts id h)
  | collect id cause =>
    exact sameAborts_answer .collected (Heap.collect_sameAborts fun cycles => hno _ _ _ (.collect cycles))
  | collectFull =>
    have hfull : h.SameAborts (finalState (Heap.collectFull.run h)) :=
      Heap.collect_sameAborts fun cycles => hno _ _ _ (.collectFull cycles)
    exact sameAborts_answer .collected hfull
  | collectTogether cause cycles =>
    exact sameAborts_answer .together
      (Heap.collectTogether_sameAborts fun leader parked mutators => hno _ _ _ (.collectTogether cycles mutators))
  | iterate id => exact sameAborts_answer .objects (Heap.iterate_sameAborts id h)
  | look => rfl
  | setRef obj i target => exact sameAborts_answer (fun _ => .done) (Heap.rests_across.setRef obj i target h).aborts
  | hold id f => rfl
  | write f | reroot f | permit f => rfl

end Request

end MarkSweep
