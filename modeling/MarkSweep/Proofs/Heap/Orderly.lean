import MarkSweep.Proofs.Heap.Across
import MarkSweep.Proofs.Heap.Creation
import MarkSweep.Proofs.Heap.Owners
/-!
# Between requests the world is running

Whatever was asked of a heap, and however it ended, no operation is under way afterwards unless a fault stopped one: every
registered mutator is running, no cycle is in any phase, and no liveness bitmap is committed (`Heap.Orderly`).  Nothing is
assumed of the memory, the roots or the free list.
-/
namespace MarkSweep

variable {α : Type}

namespace Heap

/-! ## Stopping the world -/

theorem stopTheWorld_of_error {h : Heap} {id : Option MutatorId} {f : Fault} (hhalt : h.halt id = .error f)
    (op : List Address → HeapM α) : (stopTheWorld id op).run h = .error f h := by
  rw [stopTheWorld_eq, EStateM.run_bind]
  unfold stop
  simp only [EStateM.run_bind, EStateM.run_get, hhalt, run_lift_error]

theorem stopTheWorld_of_halt {h : Heap} {id : Option MutatorId} {r : Requester} {roots : List Address} {s : Safepoint}
    (hhalt : h.halt id = .ok (r, roots, s)) (op : List Address → HeapM α) :
    (stopTheWorld id op).run h = match (op roots).run { h with safepoint := s } with
      | .ok a h' => .ok a { h' with safepoint := h'.safepoint.finish r }
      | .error f h' => .error f h' := by
  rw [stopTheWorld_eq, EStateM.run_bind]
  unfold stop
  simp only [EStateM.run_bind, EStateM.run_get, hhalt, run_lift_ok, EStateM.run_set, EStateM.run_pure]
  cases (op roots).run { h with safepoint := s } <;> rfl

/-- What a safepoint does not decide holds after an operation that stops the world if it holds where the operation ends. -/
theorem stopTheWorld_final {P : Heap → Prop} {h : Heap} {id : Option MutatorId} {op : List Address → HeapM α} (hh : P h)
    (hop : ∀ roots s, P (finalState ((op roots).run { h with safepoint := s })))
    (hsafepoint : ∀ {k s}, P k → P { k with safepoint := s }) : P (finalState ((stopTheWorld id op).run h)) := by
  cases hhalt : h.halt id with
  | error f => rw [stopTheWorld_of_error hhalt]; exact hh
  | ok x =>
    obtain ⟨r, roots, s⟩ := x
    rw [stopTheWorld_of_halt hhalt]
    have hend := hop roots s
    cases hrun : (op roots).run { h with safepoint := s } with
    | error f k => rwa [hrun] at hend
    | ok a k =>
      rw [hrun] at hend
      exact hsafepoint hend

/-- Parking takes every mutator from the running to the parked ones. -/
theorem foldlM_arrive_eq_ok {e : NarrowEncoding} : ∀ {ms : List Mutator} {s s' : Safepoint},
    ms.foldlM (fun s m => do s.arrive (← m.roots.snapshot e)) s = (.ok s' : Except Fault Safepoint) →
      s'.running + ms.length = s.running ∧ s'.parked = s.parked + ms.length ∧ s'.requested = s.requested ∧
        s'.registered = s.registered ∧ s'.epoch = s.epoch
  | [], s, s', h => by
    cases h
    exact ⟨rfl, rfl, rfl, rfl, rfl⟩
  | m :: ms, s, s', h => by
    rw [List.foldlM_cons] at h
    obtain ⟨s₁, h₁, h⟩ := except_bind_eq_ok h
    obtain ⟨roots, -, h₁⟩ := except_bind_eq_ok h₁
    obtain ⟨hpos, rfl⟩ := Safepoint.arrive_eq_ok h₁
    obtain ⟨hrun, hpark, hrest⟩ := foldlM_arrive_eq_ok h
    simp only at hrun hpark
    rw [List.length_cons]
    exact ⟨by omega, by omega, hrest⟩

/-- **Whoever gets the world to stop, lets every mutator run on at the end**; nothing but the epoch is different then. -/
theorem halt_spec {h : Heap} {n : Nat} (hidle : h.safepoint.requested = false → h.safepoint.Idle n)
    {id : Option MutatorId} {r : Requester} {roots : List Address} {s : Safepoint} (hhalt : h.halt id = .ok (r, roots, s)) :
    h.safepoint.requested = false ∧ s.requested = true ∧
      s.finish r = { h.safepoint with epoch := h.safepoint.epoch + 1 } := by
  unfold halt at hhalt
  obtain ⟨r', -, hhalt⟩ := except_bind_eq_ok hhalt
  obtain ⟨⟨raised, s₀⟩, hrequest, hhalt⟩ := except_bind_eq_ok hhalt
  obtain ⟨hcount, hraised, hrequested⟩ := Safepoint.request_eq_ok hrequest
  cases hreq : h.safepoint.requested with
  | true =>
    -- another operation is under way
    rw [hraised, hreq] at hhalt
    cases hhalt
  | false =>
  obtain ⟨i1, i2, i3, i4, i5, i6⟩ := hidle hreq
  rw [hraised, hreq] at hhalt
  obtain ⟨s', hpark, hhalt⟩ := except_bind_eq_ok (show (h.parkOthers id s₀ >>= _) = _ from hhalt)
  split at hhalt
  · cases hhalt
  next roots' s'' hbegin =>
  cases hhalt
  unfold Safepoint.begin? at hbegin
  split at hbegin
  case isFalse => cases hbegin
  next hzero =>
  cases hbegin
  obtain ⟨h1, h2, h3, h4, h5⟩ := foldlM_arrive_eq_ok hpark
  rw [hrequested, hreq] at h1 h2 h3 h4 h5
  simp only [Bool.false_eq_true, if_false] at h1 h2 h3 h4 h5
  refine ⟨rfl, h3, ?_⟩
  -- the parked mutators, and the requester if it is one, are all that were running
  have hrunning : s'.running + s'.parked + (if r.isMutator then 1 else 0) = n := by
    rw [r.count_eq]
    omega
  have hidle' : (Safepoint.finish { s' with threadRoots := [] } r).Idle n := ⟨rfl, rfl, hrunning, rfl, h4.trans i5, rfl⟩
  exact Safepoint.Idle.eq_tick ⟨hreq, i2, i3, i4, i5, i6⟩ hidle' (congrArg (· + 1) h5)

/-! ## Order -/

/-- **No operation is under way**, unless a fault stopped it: the world is not running then. -/
structure Orderly (h : Heap) : Prop where
  mutators : h.MutatorsSound
  /-- The buffer of every mutator is known. -/
  owned : ∀ m ∈ h.mutators, m.tlab < h.tlabs.buffers.size
  calm : h.safepoint.requested = false →
    h.safepoint.Idle h.mutators.length ∧ h.phase = .idle ∧ h.live.isCommitted = false

/-- The mutators are as they were, and no buffer was forgotten. -/
structure SameMutators (h h' : Heap) : Prop where
  mutators : h'.mutators = h.mutators
  issued : h'.nextMutator = h.nextMutator
  buffers : h.tlabs.buffers.size ≤ h'.tlabs.buffers.size

/-- The mutators are as they were, and none of them was stopped or started. -/
structure SameThreads (h h' : Heap) : Prop extends h.SameMutators h' where
  safepoint : h'.safepoint = h.safepoint

instance : Std.Refl SameThreads := ⟨fun _ => ⟨⟨rfl, rfl, Nat.le_refl _⟩, rfl⟩⟩

instance : IsTrans Heap SameThreads := ⟨fun _ _ _ a b =>
  ⟨⟨b.mutators.trans a.mutators, b.issued.trans a.issued, Nat.le_trans a.buffers b.buffers⟩, b.safepoint.trans a.safepoint⟩⟩

theorem Orderly.same {h h' : Heap} (ho : h.Orderly) (a : h.SameMutators h')
    (calm : h'.safepoint.requested = false →
      h'.safepoint.Idle h.mutators.length ∧ h'.phase = .idle ∧ h'.live.isCommitted = false) : h'.Orderly := by
  obtain ⟨hms, hid, hbuf⟩ := a
  refine ⟨⟨by rw [hms]; exact ho.mutators.nodup, by rw [hms, hid]; exact ho.mutators.issued⟩, ?_, by rwa [hms]⟩
  rw [hms]
  exact fun m hm => Nat.lt_of_lt_of_le (ho.owned m hm) hbuf

/-- No thread and no cycle did anything. -/
structure Rests (h h' : Heap) : Prop extends h.SameThreads h' where
  phase : h'.phase = h.phase
  live : h'.live = h.live
  aborts : h'.aborts = h.aborts

instance : Std.Refl Rests := ⟨fun h => ⟨Std.Refl.refl h, rfl, rfl, rfl⟩⟩

instance : IsTrans Heap Rests := ⟨fun _ _ _ a b => ⟨IsTrans.trans _ _ _ a.toSameThreads b.toSameThreads,
  b.phase.trans a.phase, b.live.trans a.live, b.aborts.trans a.aborts⟩⟩

theorem Writes.rests {h h' : Heap} (hw : h.Writes h') : h.Rests h' := by
  obtain ⟨hbuffers, haborts, same⟩ := hw
  rw [same] at haborts ⊢
  exact ⟨⟨⟨rfl, rfl, hbuffers⟩, rfl⟩, rfl, rfl, haborts⟩

theorem rests_across : AcrossAllocations Rests := ⟨Writes.rests, fun _ => ⟨⟨⟨rfl, rfl, Nat.le_refl _⟩, rfl⟩, rfl, rfl, rfl⟩⟩

theorem sameThreads_across : AcrossCycles SameThreads where
  quiet hbuffers same := by
    rw [same]
    exact ⟨⟨rfl, rfl, hbuffers⟩, rfl⟩
  sweep h := ⟨⟨rfl, rfl, Nat.le_refl _⟩, rfl⟩

def KeepsOrder (h h' : Heap) : Prop := h.Orderly → h'.Orderly

instance : Std.Refl KeepsOrder := ⟨fun _ ho => ho⟩

instance : IsTrans Heap KeepsOrder := ⟨fun _ _ _ a b ho => b (a ho)⟩

theorem Rests.keepsOrder {h h' : Heap} (a : h.Rests h') : h.KeepsOrder h' := fun ho =>
  ho.same a.toSameMutators (by rw [a.safepoint, a.phase, a.live]; exact ho.calm)

/-! ## Cycles and walks -/

/-- A cycle ends in the idle phase and with no bitmap committed. -/
theorem runCycle_calm {cause : Cause} {threadRoots : List Address} {h h' : Heap} {c : Except HeapError CycleStats}
    (hrun : (runCycle cause threadRoots).run h = .ok c h') (hlive : h.live.isCommitted = false) :
    h'.phase = .idle ∧ h'.live.isCommitted = false := by
  unfold runCycle at hrun
  rw [run_bind_of_ok (EStateM.run_get h)] at hrun
  split at hrun
  · cases hrun
    exact ⟨rfl, hlive⟩
  · rw [run_bind_of_ok (EStateM.run_set _ _)] at hrun
    obtain ⟨marked, h₁, -, hrun⟩ := run_bind_eq_ok hrun
    obtain ⟨swept, h₂, -, hrun⟩ := run_bind_eq_ok hrun
    cases hrun
    exact ⟨rfl, rfl⟩

theorem iterate_eq (id : Option MutatorId) : iterate id = stopTheWorld id fun _ => visit := rfl

/-- **Stopping the world keeps order** where the operation leaves the threads alone and ends as calm as it started. -/
theorem stopTheWorld_keepsOrder {id : Option MutatorId} {op : List Address → HeapM α}
    (same : ∀ roots, Leads SameThreads (op roots))
    (calm : ∀ {roots h a h'}, (op roots).run h = .ok a h' → h.phase = .idle ∧ h.live.isCommitted = false →
      h'.phase = .idle ∧ h'.live.isCommitted = false) : Leads KeepsOrder (stopTheWorld id op) := by
  intro h ho
  cases hhalt : h.halt id with
  | error f => rw [stopTheWorld_of_error hhalt]; exact ho
  | ok x =>
  obtain ⟨r, roots, s⟩ := x
  obtain ⟨hreq, hs, hfinish⟩ := halt_spec (fun hreq => (ho.calm hreq).1) hhalt
  obtain ⟨hidle, hcalm⟩ := ho.calm hreq
  rw [stopTheWorld_of_halt hhalt]
  have hsame := same roots { h with safepoint := s }
  cases hrun : (op roots).run { h with safepoint := s } with
  | error f h' =>
    rw [hrun] at hsame
    refine ho.same ⟨hsame.mutators, hsame.issued, hsame.buffers⟩ fun hno => ?_
    -- the world stays stopped
    rw [hsame.safepoint, hs] at hno
    cases hno
  | ok a h' =>
    rw [hrun] at hsame
    have hend := calm hrun hcalm
    refine ho.same ⟨hsame.mutators, hsame.issued, hsame.buffers⟩ fun _ => ⟨?_, hend⟩
    have hback : h'.safepoint.finish r = { h.safepoint with epoch := h.safepoint.epoch + 1 } := by
      rw [show h'.safepoint = s from hsame.safepoint, hfinish]
    rw [finalState, hback]
    exact ⟨hidle.requested, hidle.pending, hidle.running, hidle.parked, hidle.registered, hidle.threadRoots⟩

theorem collectNow_keepsOrder (id : Option MutatorId) (cause : Cause) : Leads KeepsOrder (collectNow id cause) := by
  refine .bind (.modify fun h => Rests.keepsOrder (Writes.rests ⟨Nat.le_refl _, rfl, rfl⟩)) fun _ => ?_
  exact stopTheWorld_keepsOrder (sameThreads_across.runCycle cause) fun hrun hcalm => runCycle_calm hrun hcalm.2

theorem iterate_keepsOrder (id : Option MutatorId) : Leads KeepsOrder (iterate id) := by
  rw [iterate_eq]
  refine stopTheWorld_keepsOrder (fun _ => rests_across.visit.mono (·.toSameThreads)) fun {_ h _ _} hrun hcalm => ?_
  have hrests := rests_across.visit h
  rw [hrun] at hrests
  exact ⟨hrests.phase.trans hcalm.1, (congrArg Bitmap.isCommitted hrests.live).trans hcalm.2⟩

/-! ## Mutators -/

theorem newMutator_keepsOrder : Leads KeepsOrder newMutator := by
  intro h ho
  unfold newMutator
  simp only [EStateM.run_bind, EStateM.run_get]
  cases hregister : h.safepoint.register with
  | none => exact ho
  | some s =>
  have hreq : h.safepoint.requested = false := by
    cases hreq : h.safepoint.requested with
    | false => rfl
    | true => rw [Safepoint.register, if_pos hreq] at hregister; cases hregister
  obtain ⟨hidle, hcalm⟩ := ho.calm hreq
  simp only [EStateM.run_bind]
  cases hmin : h.adjust (h.settings.minTlabSize / wordBytes) with
  | error f => exact ho
  | ok minWords =>
  simp only [run_lift_ok]
  cases hsize : h.tlabSizeFor (min minWords h.maxTlabWords) (h.settings.tlabSize / wordBytes) with
  | error f => exact ho
  | ok tlabWords =>
  refine ⟨ho.mutators.add rfl rfl rfl, fun m hm => ?_, fun _ => ⟨?_, hcalm⟩⟩
  · show m.tlab < (h.tlabs.buffers.push .empty).size
    rw [Array.size_push]
    rcases List.mem_append.1 hm with hm | hm
    · exact Nat.lt_succ_of_lt (ho.owned m hm)
    · rw [List.mem_singleton.1 hm]
      exact Nat.lt_succ_self _
  · simpa [finalState] using hidle.register hregister

theorem dropMutator_keepsOrder (id : MutatorId) : Leads KeepsOrder (dropMutator id) := by
  refine fun h ho => ?_
  unfold dropMutator
  simp only [EStateM.run_bind, EStateM.run_get]
  cases hmut : h.mutator id with
  | error f => exact ho
  | ok m =>
  obtain ⟨hm, rfl⟩ := mutator_eq_ok hmut
  have ho' := (h.writes_retireTlab m.tlab).rests.keepsOrder ho
  simp only [run_lift_ok, EStateM.run_modify]
  cases hunregister : (h.retireTlab m.tlab).safepoint.unregister with
  | error f => exact ho'
  | ok s =>
  refine ⟨ho'.mutators.filter rfl rfl, fun m' hm' => ho'.owned m' (List.mem_filter.1 hm').1, fun hreq => ?_⟩
  have hlen := length_filter_id ho.mutators.nodup hm
  have hreq' : h.safepoint.requested = false := by
    obtain ⟨-, -, hrest⟩ := Safepoint.unregister_eq_ok hunregister
    exact (congrArg (·.requested) hrest).symm.trans hreq
  obtain ⟨hidle, hcalm⟩ := ho.calm hreq'
  rw [← hlen] at hidle
  exact ⟨hidle.unregister hunregister, hcalm⟩

theorem Orderly.updateRoots {h : Heap} (ho : h.Orderly) (id : MutatorId) (f : RootSlots → RootSlots) :
    (h.updateRoots id f).Orderly := by
  have hlen : (h.updateRoots id f).mutators.length = h.mutators.length := List.length_map _
  refine ⟨⟨?_, ?_⟩, ?_, ?_⟩
  · rw [map_updateRoots fun _ _ => rfl]
    exact ho.mutators.nodup
  · intro m hm
    obtain ⟨m', hm', he, -⟩ := mem_updateRoots hm
    rw [he]
    exact ho.mutators.issued m' hm'
  · intro m hm
    obtain ⟨m', hm', -, he, -⟩ := mem_updateRoots hm
    rw [he]
    exact ho.owned m' hm'
  · rw [hlen]
    exact ho.calm

theorem keepsOrder_across : AcrossRequests KeepsOrder where
  writes hw := hw.rests.keepsOrder
  carves hrun := (rests_across.carves hrun).keepsOrder
  collectNow := collectNow_keepsOrder
  iterate := iterate_keepsOrder
  newMutator := newMutator_keepsOrder
  dropMutator := dropMutator_keepsOrder
  updateRoots _ id f ho := ho.updateRoots id f

/-! ## Creation -/

/-- A new heap has no mutators, and its bitmap is not committed. -/
theorem create_orderly {settings : Settings} {base : Address} {granted hook : Bool} {available : Nat → Bool} {h : Heap}
    (hrun : create settings base granted hook available = .ok h) : h.Orderly := by
  unfold create at hrun
  obtain ⟨_, -, hrun⟩ := except_bind_eq_ok hrun
  obtain ⟨_, -, hrun⟩ := except_bind_eq_ok hrun
  obtain ⟨_, -, hrun⟩ := except_bind_eq_ok hrun
  obtain ⟨_, -, hrun⟩ := except_bind_eq_ok hrun
  obtain ⟨_, -, hrun⟩ := except_bind_eq_ok hrun
  obtain ⟨live, hlive, hrun⟩ := except_bind_eq_ok hrun
  obtain ⟨_, -, hrun⟩ := except_bind_eq_ok hrun
  obtain ⟨_, -, hrun⟩ := except_bind_eq_ok hrun
  obtain ⟨_, -, hrun⟩ := except_bind_eq_ok hrun
  cases hrun
  have huncommitted := Bitmap.covering_uncommitted hlive
  refine ⟨⟨List.nodup_nil, ?_⟩, ?_, fun _ => ⟨⟨rfl, rfl, rfl, rfl, rfl, rfl⟩, rfl, huncommitted⟩⟩
  · exact fun _ hm => nomatch hm
  · exact fun _ hm => nomatch hm

end Heap

/-! ## Requests -/

theorem Request.serve_orderly (r : Request) {h : Heap} (ho : h.Orderly) :
    (r.serve ⟨h, false⟩).2.locked = false ∧ (r.serve ⟨h, false⟩).2.heap.Orderly :=
  (r.serve_leads Heap.keepsOrder_across h).imp_right fun hkeeps => hkeeps ho

/-- **Between requests the heap lock is free and the heap is orderly.** -/
theorem Guarded.Reached.orderly {g : Guarded} (hg : g.Reached) : g.locked = false ∧ g.heap.Orderly := by
  induction hg with
  | create run => exact ⟨rfl, Heap.create_orderly run⟩
  | @serve g r reached ih =>
    obtain ⟨h, locked⟩ := g
    obtain ⟨rfl, ho⟩ := ih
    exact r.serve_orderly ho

end MarkSweep
