import MarkSweep.Proofs.Heap.Lock
/-!
# What operations do not look at

No operation looks at the number of epochs, at the cause on record, or at the log.  So what can be seen of a heap
(`Heap.view`) decides what an operation gives, and what can be seen of the heap it leaves (`Heap.Blind`).  The one that does
not is the collection for the cause on record.
-/
namespace MarkSweep

variable {α β : Type}

namespace Heap

@[simp] theorem view_space (h : Heap) : h.view.space = h.space := rfl

@[simp] theorem view_memory (h : Heap) : h.view.memory = h.memory := rfl

@[simp] theorem view_live (h : Heap) : h.view.live = h.live := rfl

@[simp] theorem view_encoding (h : Heap) : h.view.encoding = h.encoding := rfl

@[simp] theorem view_roots (h : Heap) : h.view.roots = h.roots := rfl

@[simp] theorem view_tlabs (h : Heap) : h.view.tlabs = h.tlabs := rfl

theorem view_view (h : Heap) : h.view.view = h.view := by
  unfold view
  simp only [Array.filter_filter, Bool.and_self]

theorem note_view (h : Heap) {n : Notice} (hn : n.isAbort = false) : h.view.note n = (h.note n).view := by
  unfold view note
  simp only [Array.filter_push, hn, Bool.not_false, if_true]

theorem note_abort_view (h : Heap) {n : Notice} (hn : n.isAbort = true) : (h.note n).view = h.view := by
  unfold view note
  simp only [Array.filter_push, hn, Bool.not_true, Bool.false_eq_true, if_false]

/-- A result, and what can be seen of the heap that is left. -/
def seen : EStateM.Result Fault Heap α → EStateM.Result Fault Heap α
  | .ok a h => .ok a h.view
  | .error f h => .error f h.view

/-- What can be seen of a heap decides what can be seen of the end of `x`. -/
def Blind (x : HeapM α) : Prop := ∀ h, seen (x.run h.view) = seen (x.run h)

/-- **Heaps that look the same are the same to a blind operation.** -/
theorem Blind.eq {x : HeapM α} (hx : Blind x) {h h' : Heap} (same : h.view = h'.view) : seen (x.run h) = seen (x.run h') := by
  rw [← hx h, ← hx h', same]

namespace Blind

/-- An operation that only changes what can be seen. -/
theorem commutes {x : HeapM α} (hx : ∀ h, x.run h.view = seen (x.run h)) : Blind x := by
  intro h
  rw [hx]
  cases x.run h with
  | ok a h' => exact congrArg (EStateM.Result.ok a) h'.view_view
  | error f h' => exact congrArg (EStateM.Result.error f) h'.view_view

theorem pure (a : α) : Blind (pure a) := .commutes fun _ => rfl

theorem lift (x : Except Fault α) : Blind (liftM x) := .commutes fun _ => by cases x <;> rfl

theorem bind {x : HeapM α} {f : α → HeapM β} (hx : Blind x) (hf : ∀ a, Blind (f a)) : Blind (x >>= f) := by
  intro h
  have hfirst := hx h
  rw [EStateM.run_bind, EStateM.run_bind]
  cases hrun : x.run h with
  | ok a h₁ =>
    rw [hrun] at hfirst
    cases hrun' : x.run h.view with
    | ok a' h₂ =>
      rw [hrun'] at hfirst
      injection hfirst with ha hview
      subst ha
      exact (hf a').eq hview
    | error f' h₂ => rw [hrun'] at hfirst; cases hfirst
  | error e h₁ =>
    rw [hrun] at hfirst
    cases hrun' : x.run h.view with
    | ok a' h₂ => rw [hrun'] at hfirst; cases hfirst
    | error f' h₂ =>
      rw [hrun'] at hfirst
      injection hfirst with he hview
      subst he
      exact congrArg (EStateM.Result.error f') hview

theorem get_bind {f : Heap → HeapM β} (hview : ∀ h, f h.view = f h) (hf : ∀ h, Blind (f h)) : Blind (get >>= f) := by
  intro h
  show seen ((f h.view).run h.view) = seen ((f h).run h)
  rw [hview]
  exact hf h h

theorem modify {f : Heap → Heap} (hf : ∀ h, (f h.view).view = (f h).view) : Blind (modify f) := fun h =>
  congrArg (EStateM.Result.ok ()) (hf h)

end Blind

/-! ## Stopping the world -/

/-- How a safepoint is seen. -/
def unnumbered (s : Safepoint) : Safepoint := { s with epoch := 0 }

theorem arrive_unnumbered (s : Safepoint) (roots : List Address) :
    (unnumbered s).arrive roots = (s.arrive roots).map unnumbered := by
  unfold Safepoint.arrive unnumbered
  simp only
  split <;> rfl

theorem request_unnumbered (s : Safepoint) (r : Requester) :
    (unnumbered s).request r = (s.request r).map fun x => (x.1, unnumbered x.2) := by
  unfold Safepoint.request
  have hrequested : (unnumbered s).requested = s.requested := rfl
  have hrunning : (unnumbered s).running = s.running := rfl
  rw [hrequested]
  split
  · cases r with
    | external => rfl
    | mutator roots =>
      simp only [arrive_unnumbered]
      cases s.arrive roots <;> rfl
  · cases r with
    | external => rfl
    | mutator roots =>
      simp only [hrunning]
      split <;> rfl

theorem register_unnumbered (s : Safepoint) : (unnumbered s).register = s.register.map unnumbered := by
  have hrequested : (unnumbered s).requested = s.requested := rfl
  unfold Safepoint.register
  rw [hrequested]
  split <;> rfl

theorem unregister_unnumbered (s : Safepoint) : (unnumbered s).unregister = s.unregister.map unnumbered := by
  have hrunning : (unnumbered s).running = s.running := rfl
  have hregistered : (unnumbered s).registered = s.registered := rfl
  unfold Safepoint.unregister
  rw [hrunning, hregistered]
  split <;> rfl

theorem begin_unnumbered (s : Safepoint) : (unnumbered s).begin? = s.begin?.map fun x => (x.1, unnumbered x.2) := by
  have hrunning : (unnumbered s).running = s.running := rfl
  unfold Safepoint.begin?
  rw [hrunning]
  split <;> rfl

theorem parkOthers_unnumbered (h : Heap) (id : Option MutatorId) (s : Safepoint) :
    h.view.parkOthers id (unnumbered s) = (h.parkOthers id s).map unnumbered := by
  unfold parkOthers
  show (h.mutators.filter _).foldlM _ _ = _
  induction h.mutators.filter fun m => some m.id != id generalizing s with
  | nil => rfl
  | cons m ms ih =>
    rw [List.foldlM_cons, List.foldlM_cons, view_encoding]
    cases m.roots.snapshot h.encoding with
    | error f => rfl
    | ok roots =>
    simp only [bind, Except.bind, arrive_unnumbered]
    cases s.arrive roots with
    | error f => rfl
    | ok s' => exact ih s'

/-- **Everyone stops the same way**, whatever the number of epochs is. -/
theorem halt_view (h : Heap) (id : Option MutatorId) :
    h.view.halt id = (h.halt id).map fun x => (x.1, x.2.1, unnumbered x.2.2) := by
  have hrequester : h.view.requester id = h.requester id := rfl
  have hsafepoint : h.view.safepoint = unnumbered h.safepoint := rfl
  unfold halt
  rw [hrequester, hsafepoint]
  cases h.requester id with
  | error f => rfl
  | ok r =>
  simp only [bind, Except.bind, request_unnumbered]
  cases h.safepoint.request r with
  | error f => rfl
  | ok x =>
  obtain ⟨raised, s⟩ := x
  cases raised with
  | false => rfl
  | true =>
  simp only [Except.map, Bool.not_true, Bool.false_eq_true, if_false, parkOthers_unnumbered]
  cases h.parkOthers id s with
  | error f => rfl
  | ok s' =>
  simp only [begin_unnumbered]
  cases s'.begin? <;> rfl

theorem stop_blind (id : Option MutatorId) : Blind (stop id) := by
  refine .commutes fun h => ?_
  unfold stop
  simp only [EStateM.run_bind, EStateM.run_get, halt_view]
  cases h.halt id <;> rfl

theorem resume_blind (r : Requester) : Blind (resume r) := .modify fun h => by
  unfold view Safepoint.finish
  simp only [Array.filter_filter, Bool.and_self]

theorem stopTheWorld_blind {id : Option MutatorId} {op : List Address → HeapM α} (hop : ∀ roots, Blind (op roots)) :
    Blind (stopTheWorld id op) := by
  rw [stopTheWorld_eq]
  exact (stop_blind id).bind fun (r, roots) => (hop roots).bind fun a => (resume_blind r).bind fun _ => .pure a

/-! ## Cycles and walks -/

theorem prologue_view (h : Heap) : h.view.prologue = h.prologue.map fun x => (x.1, x.2.view) := by
  unfold prologue
  show (h.live.commit h.granted >>= _) = _
  cases h.live.commit h.granted <;> rfl

theorem markLive_blind (threadRoots : List Address) : Blind (markLive threadRoots) := .commutes fun h => by
  unfold markLive
  simp only [EStateM.run_bind, EStateM.run_get, EStateM.run_set, view_live, view_memory, view_encoding, view_roots]
  cases (Marker.run h.live h.memory h.encoding (h.roots.enumerate threadRoots)).1 <;> rfl

theorem sweepDead_blind : Blind sweepDead := .commutes fun h => by
  unfold sweepDead
  simp only [EStateM.run_bind, EStateM.run_get, EStateM.run_set, view_space, view_memory, view_live]
  cases (h.space.sweep h.memory h.live).1 <;> rfl

theorem runCycle_blind (cause : Cause) (threadRoots : List Address) : Blind (runCycle cause threadRoots) := by
  intro h
  unfold runCycle
  simp only [EStateM.run_bind, EStateM.run_get, prologue_view]
  cases hpro : h.prologue with
  | error e =>
    -- the notice of the abort is not seen
    have hboth : ({ h.view with phase := .idle }.note (.cycleAborted cause e)).view =
        ({ h with phase := .idle }.note (.cycleAborted cause e)).view := by
      rw [note_abort_view _ rfl, note_abort_view _ rfl]
      exact view_view { h with phase := .idle }
    exact congrArg (EStateM.Result.ok _) hboth
  | ok x =>
    refine ((markLive_blind threadRoots).bind fun marked => sweepDead_blind.bind fun swept => ?_) x.2
    refine Blind.bind (.commutes fun _ => rfl) fun _ => Blind.bind (.commutes fun h => ?_) fun _ => .pure _
    simp only [EStateM.run_modify, seen, view, note, Array.filter_push, Notice.isAbort, Bool.not_false, if_true]

theorem visit_blind : Blind visit := .commutes fun h => by
  unfold visit
  simp only [EStateM.run_bind, EStateM.run_get, EStateM.run_set, view_space, view_memory, view_tlabs]
  cases h.space.objects (h.tlabs.retireAll h.memory).2.1 <;> rfl

theorem iterate_blind (id : Option MutatorId) : Blind (iterate id) := stopTheWorld_blind fun _ => visit_blind

theorem collectNow_blind (id : Option MutatorId) (cause : Cause) : Blind (collectNow id cause) := by
  refine .bind (.modify fun h => ?_) fun _ => stopTheWorld_blind (runCycle_blind cause)
  exact h.view_view

theorem collect_blind (id : Option MutatorId) (cause : Cause) : Blind (collect id cause) := by
  cases cause with
  | allocationFailure | explicit => exact (collectNow_blind id _).bind fun _ => .pure _
  | metadataThreshold | metadataClearSoftRefs =>
    refine .bind (.commutes fun h => ?_) fun _ => .pure _
    simp only [EStateM.run_modify, note_view h (n := .requestHandled _) rfl]
    show EStateM.Result.ok () (if h.hasMetadataHook then _ else _) = seen (.ok () (if h.hasMetadataHook then _ else _))
    cases h.hasMetadataHook <;> rfl
  | noGc | heapInspection | heapDump =>
    exact .bind (.commutes fun h => congrArg (EStateM.Result.ok ()) (note_view h rfl)) fun _ => .pure _

theorem collectTogether_blind (cause : Cause) : Blind (collectTogether cause) := by
  refine .get_bind (fun _ => rfl) fun h => ?_
  cases h.mutators with
  | nil => exact .pure _
  | cons leader parked => exact (collectNow_blind _ cause).bind fun _ => .pure _

/-! ## Allocations -/

theorem carve_blind (words : Nat) : Blind (carve words) := .commutes fun h => by
  unfold carve
  simp only [EStateM.run_bind, EStateM.run_get, view_space]
  cases h.space.allocate words <;> rfl

theorem attemptTwice_blind {id : Option MutatorId} {attempt : HeapM (Option α)} {refusal : HeapM HeapError}
    (ha : Blind attempt) (hr : Blind refusal) : Blind (attemptTwice id attempt refusal) := by
  refine ha.bind fun a => ?_
  cases a with
  | some a => exact .pure _
  | none =>
  refine ((collectNow_blind id _).bind fun _ => .pure _).bind fun _ => ha.bind fun a => ?_
  cases a with
  | some a => exact .pure _
  | none => exact hr.bind fun _ => .pure _

theorem claim_blind (words : Nat) {use : Address → HeapM α} (hu : ∀ a, Blind (use a)) : Blind (claim words use) := by
  refine (carve_blind words).bind fun a => ?_
  cases a with
  | none => exact .pure _
  | some a => exact (hu a).bind fun _ => .pure _

theorem refuse_blind (words : Nat) : Blind (refuse words) :=
  .get_bind (fun _ => rfl) fun _ => (Blind.lift _).bind fun _ => .pure _

theorem claimOrCollect_blind (words : Nat) {use : Address → HeapM α} (hu : ∀ a, Blind (use a)) :
    Blind (claimOrCollect words use) := by
  refine .get_bind (fun _ => rfl) fun h => ?_
  cases h.space.canFit words with
  | false => exact .pure _
  | true => exact attemptTwice_blind (claim_blind words hu) (refuse_blind words)

theorem fillClaimed_blind (words : Nat) (a : Address) : Blind (fillClaimed words a) := by
  refine .get_bind (fun _ => rfl) fun h => (Blind.lift _).bind fun _ => ?_
  exact Blind.bind (.commutes fun _ => rfl) fun _ => .pure _

theorem installNew_blind (words : Nat) (start : Address) : Blind (installNew words start) := .commutes fun _ => rfl

theorem allocate_blind (words : Nat) : Blind (allocate words) := by
  rw [allocate_eq]
  exact claimOrCollect_blind words (fillClaimed_blind words)

theorem newTlab_blind (minWords requestedWords : Nat) : Blind (newTlab minWords requestedWords) := by
  rw [newTlab_eq]
  exact .get_bind (fun _ => rfl) fun h => (Blind.lift _).bind fun words => claimOrCollect_blind words (installNew_blind words)

theorem bump_view (h : Heap) (id : TlabId) (words : Nat) :
    h.view.bump id words = ((h.bump id words).1, (h.bump id words).2.view) := by
  unfold bump
  simp only [view_tlabs]
  cases (h.tlabs.get id).allocate words <;> rfl

theorem allocateIn_blind (id : TlabId) (words : Nat) : Blind (allocateIn id words) := by
  refine .get_bind (fun _ => rfl) fun h => ?_
  cases h.space.canFit words with
  | false => exact .pure _
  | true =>
  refine .get_bind (fun _ => rfl) fun h => (Blind.lift _).bind fun words => .commutes fun h => ?_
  simp only [EStateM.run_modifyGet, bump_view]
  rcases h.bump id words with ⟨_ | a, h'⟩ <;> rfl

theorem refillOrCarve_blind (m : Mutator) (words : Nat) : Blind (refillOrCarve m words) := by
  refine .get_bind (fun _ => rfl) fun h => ?_
  split
  · refine .get_bind (fun _ => rfl) fun h => (Blind.lift _).bind fun size => (carve_blind size).bind fun a => ?_
    cases a with
    | none => exact carve_blind words
    | some start =>
      refine .commutes fun h => ?_
      have hinstall : (h.view.retireTlab m.tlab).installTlab m.tlab start size =
          ((h.retireTlab m.tlab).installTlab m.tlab start size).view := rfl
      simp only [EStateM.run_modifyGet, hinstall, bump_view]
      rfl
  · exact carve_blind words

theorem allocateFor_blind (id : MutatorId) (words : Nat) : Blind (allocateFor id words) := by
  rw [allocateFor_eq]
  refine .get_bind (fun _ => rfl) fun h => (Blind.lift _).bind fun m => .get_bind (fun _ => rfl) fun h => ?_
  cases h.space.canFit words with
  | false => exact .pure _
  | true =>
  refine .get_bind (fun _ => rfl) fun h => (Blind.lift _).bind fun words => ?_
  refine Blind.bind (.commutes fun h => ?_) fun a => ?_
  · simp only [EStateM.run_modifyGet, bump_view]
    rfl
  cases a with
  | some a => exact .pure _
  | none => exact attemptTwice_blind (refillOrCarve_blind m words) (.pure _)

/-! ## Mutators -/

theorem newMutator_blind : Blind newMutator := .commutes fun h => by
  unfold newMutator
  have hregister : h.view.safepoint.register = h.safepoint.register.map unnumbered := register_unnumbered h.safepoint
  simp only [EStateM.run_bind, EStateM.run_get, hregister]
  cases h.safepoint.register with
  | none => rfl
  | some s =>
  have hadjust : h.view.adjust (h.view.settings.minTlabSize / wordBytes) = h.adjust (h.settings.minTlabSize / wordBytes) := rfl
  simp only [Option.map, EStateM.run_bind, hadjust]
  cases h.adjust (h.settings.minTlabSize / wordBytes) with
  | error f => rfl
  | ok minWords =>
  have hsize : h.view.tlabSizeFor (min minWords h.view.maxTlabWords) (h.view.settings.tlabSize / wordBytes) =
      h.tlabSizeFor (min minWords h.maxTlabWords) (h.settings.tlabSize / wordBytes) := rfl
  simp only [run_lift_ok, hsize]
  cases h.tlabSizeFor (min minWords h.maxTlabWords) (h.settings.tlabSize / wordBytes) <;> rfl

theorem dropMutator_blind (id : MutatorId) : Blind (dropMutator id) := by
  refine .get_bind (fun _ => rfl) fun h => (Blind.lift _).bind fun m => ?_
  refine Blind.bind (.commutes fun _ => rfl) fun _ => .commutes fun h => ?_
  have hunregister : h.view.safepoint.unregister = h.safepoint.unregister.map unnumbered := unregister_unnumbered h.safepoint
  simp only [EStateM.run_bind, EStateM.run_get, hunregister]
  cases h.safepoint.unregister <;> rfl

theorem setRef_blind (obj : Address) (i : Nat) (target : Address) : Blind (setRef obj i target) := .commutes fun h => by
  unfold setRef
  have hmemory : (Object.header h.view.memory obj).isNarrow = (Object.header h.memory obj).isNarrow := rfl
  simp only [EStateM.run_bind, EStateM.run_get]
  by_cases hnarrow : (Object.header h.memory obj).isNarrow = true
  · rw [if_pos (hmemory.trans hnarrow), if_pos hnarrow]
    show EStateM.run (liftM (h.encoding.encode target) >>= _) _ = _
    cases h.encoding.encode target <;> rfl
  · rw [if_neg (by rwa [hmemory]), if_neg hnarrow]
    rfl

end Heap

/-! ## Requests -/

open Heap in
theorem Request.blind {r : Request} (hr : r ≠ .collectFull) : Blind r.op := by
  cases r with
  | allocate words => exact (allocate_blind words).bind fun _ => .pure _
  | newTlab minWords requestedWords => exact (newTlab_blind minWords requestedWords).bind fun _ => .pure _
  | allocateIn id words => exact (allocateIn_blind id words).bind fun _ => .pure _
  | dropTlab id => exact Blind.bind (.commutes fun _ => rfl) fun _ => .pure _
  | carve words => exact (carve_blind words).bind fun _ => .pure _
  | newMutator => exact newMutator_blind.bind fun _ => .pure _
  | allocateFor id words => exact (allocateFor_blind id words).bind fun _ => .pure _
  | dropMutator id => exact (dropMutator_blind id).bind fun _ => .pure _
  | collect id cause => exact (collect_blind id cause).bind fun _ => .pure _
  | collectFull => exact absurd rfl hr
  | collectTogether cause _ => exact (collectTogether_blind cause).bind fun _ => .pure _
  | iterate id => exact (iterate_blind id).bind fun _ => .pure _
  | look => exact .get_bind (fun h => congrArg (fun h => Pure.pure (Answer.seen h)) h.view_view) fun h => .pure _
  | setRef obj i target => exact (setRef_blind obj i target).bind fun _ => .pure _
  | write f | reroot f | hold f | permit f => exact Blind.bind (.commutes fun _ => rfl) fun _ => .pure _

/-- **Heaps that look the same answer the same**, and look the same afterwards. -/
theorem Request.serve_view {r : Request} (hr : r ≠ .collectFull) {h k : Heap} (same : k.view = h.view) :
    ∃ a h' k', r.serve ⟨h, false⟩ = (a, ⟨h', false⟩) ∧ r.serve ⟨k, false⟩ = (a, ⟨k', false⟩) ∧ k'.view = h'.view := by
  have hseen := (r.blind hr).eq same
  rw [r.serve_free, r.serve_free]
  cases hrun : r.op.run h <;> cases hrun' : r.op.run k <;> rw [hrun, hrun'] at hseen
  case ok.ok a h' a' k' =>
    injection hseen with ha hview
    exact ⟨.ok a, h', k', rfl, by rw [ha], hview⟩
  case error.error f h' f' k' =>
    injection hseen with hf hview
    exact ⟨.error f, h', k', rfl, by rw [hf], hview⟩
  all_goals cases hseen

end MarkSweep
