import MarkSweep.Heap.Collection
import MarkSweep.Proofs.Safepoint.Sections
import Mathlib.Data.List.Nodup
/-!
# The world stops for every operation that asks for it

Between operations no thread is parked and every registered mutator is running (`Safepoint.Idle`).  Then whoever asks,
a mutator or an external thread, gets every mutator to park, and the operation sees the references that all of them
hold (`stopTheWorld_spec`).
-/
namespace MarkSweep

/-- No operation is requested, and `n` mutators are registered and running. -/
structure Safepoint.Idle (s : Safepoint) (n : Nat) : Prop where
  requested : s.requested = false
  pending : s.pending = false
  running : s.running = n
  parked : s.parked = 0
  registered : s.registered = n
  threadRoots : s.threadRoots = []

theorem Safepoint.Idle.eq_tick {s s' : Safepoint} {n : Nat} (h : s.Idle n) (h' : s'.Idle n) (he : s'.epoch = s.epoch + 1) :
    s' = { s with epoch := s.epoch + 1 } := by
  cases s
  cases s'
  simp only [Safepoint.mk.injEq]
  exact ⟨h'.requested.trans h.requested.symm, h'.pending.trans h.pending.symm, h'.running.trans h.running.symm,
    h'.parked.trans h.parked.symm, h'.registered.trans h.registered.symm, he, h'.threadRoots.trans h.threadRoots.symm⟩

theorem Safepoint.Idle.register {s s' : Safepoint} {n : Nat} (h : s.Idle n) (hrun : s.register = some s') :
    s'.Idle (n + 1) := by
  unfold Safepoint.register at hrun
  rw [h.requested, if_neg Bool.false_ne_true] at hrun
  cases hrun
  exact ⟨rfl, h.pending, congrArg (· + 1) h.running, h.parked, congrArg (· + 1) h.registered, h.threadRoots⟩

theorem Safepoint.Idle.unregister {s s' : Safepoint} {n : Nat} (h : s.Idle (n + 1)) (hrun : s.unregister = .ok s') :
    s'.Idle n := by
  obtain ⟨-, -, rfl⟩ := Safepoint.unregister_eq_ok hrun
  exact ⟨h.requested, h.pending, congrArg (· - 1) h.running, h.parked, congrArg (· - 1) h.registered, h.threadRoots⟩

/-- The references that a mutator holds can be loaded. -/
def RootSlots.Loads (s : RootSlots) (e : NarrowEncoding) : Prop := ∀ r ∈ s.references, ∃ a, r.load e = .ok a

theorem mapM_load {e : NarrowEncoding} : ∀ {rs : List Reference}, (∀ r ∈ rs, ∃ a, r.load e = .ok a) →
    ∃ as, rs.mapM (·.load e) = (.ok as : Except Fault (List Address)) ∧ ∀ a, a ∈ as ↔ ∃ r ∈ rs, r.load e = .ok a
  | [], _ => ⟨[], rfl, fun a => by simp⟩
  | r :: rs, h => by
    obtain ⟨a, ha⟩ := h r (by simp)
    have htail : ∀ r' ∈ rs, ∃ a, r'.load e = .ok a := fun r' hr => h r' (by simp [hr])
    obtain ⟨as, has, hmem⟩ := mapM_load htail
    refine ⟨a :: as, by rw [List.mapM_cons, ha, has]; rfl, ?_⟩
    intro c
    simp only [List.mem_cons, hmem, exists_eq_or_imp, ha, Except.ok.injEq]
    exact or_congr_left eq_comm

theorem RootSlots.Loads.snapshot {s : RootSlots} {e : NarrowEncoding} (h : s.Loads e) :
    ∃ as, s.snapshot e = .ok as ∧ ∀ a, a ∈ as ↔ a ≠ 0 ∧ ∃ r ∈ s.references, r.load e = .ok a := by
  obtain ⟨as, has, hmem⟩ := mapM_load h
  refine ⟨as.filter (· != 0), by simp [RootSlots.snapshot, has, bind, Except.bind, pure, Except.pure], ?_⟩
  intro a
  rw [List.mem_filter, hmem, bne_iff_ne, and_comm]

namespace Heap

/-- The registered mutators have different ids, which were all handed out before. -/
structure MutatorsSound (h : Heap) : Prop where
  nodup : (h.mutators.map (·.id)).Nodup
  issued : ∀ m ∈ h.mutators, m.id < h.nextMutator

theorem mutator_eq_ok {h : Heap} {id : MutatorId} {m : Mutator} (hm : h.mutator id = .ok m) : m ∈ h.mutators ∧ m.id = id := by
  unfold mutator at hm
  split at hm
  · next m' hf =>
    cases hm
    refine ⟨List.mem_of_find?_eq_some hf, ?_⟩
    simpa using List.find?_some hf
  · cases hm

theorem mutator_of_mem {h : Heap} {m : Mutator} (hm : m ∈ h.mutators) : ∃ m', h.mutator m.id = .ok m' := by
  unfold mutator
  cases hf : h.mutator? m.id with
  | some m' => exact ⟨m', rfl⟩
  | none =>
    have := List.find?_eq_none.1 hf m hm
    simp at this

theorem foldlM_arrive {e : NarrowEncoding} : ∀ (ms : List Mutator) {s : Safepoint} (n : Nat),
    (∀ m ∈ ms, m.roots.Loads e) → s.running = ms.length + n →
      ∃ s', ms.foldlM (fun s m => do s.arrive (← m.roots.snapshot e)) s = (.ok s' : Except Fault Safepoint) ∧
        s'.running = n ∧ s'.parked = s.parked + ms.length ∧ s'.requested = s.requested ∧ s'.pending = s.pending ∧
        s'.registered = s.registered ∧ s'.epoch = s.epoch ∧
        ∀ a, a ∈ s'.threadRoots ↔ a ∈ s.threadRoots ∨ ∃ m ∈ ms, a ≠ 0 ∧ ∃ r ∈ m.roots.references, r.load e = .ok a
  | [], s, n, _, hrun => ⟨s, rfl, by simpa using hrun, rfl, rfl, rfl, rfl, rfl, fun a => by simp⟩
  | m :: ms, s, n, hload, hrun => by
    obtain ⟨as, has, hmem⟩ := (hload m (by simp)).snapshot
    rw [List.length_cons] at hrun
    obtain ⟨s', hfold, h1, h2, h3, h4, h5, h6, h7⟩ := foldlM_arrive ms n
      (s := { s with running := s.running - 1, parked := s.parked + 1, threadRoots := s.threadRoots ++ as })
      (fun m' hm => hload m' (by simp [hm])) (by simp only; omega)
    refine ⟨s', ?_, h1, by rw [h2, List.length_cons]; simp only; omega, h3, h4, h5, h6, ?_⟩
    · have hne : ¬s.running = 0 := by omega
      rw [List.foldlM_cons, has]
      simp only [bind, Except.bind, Safepoint.arrive, hne, if_false]
      exact hfold
    · intro a
      rw [h7, List.mem_append, hmem, or_assoc]
      simp only [List.mem_cons, exists_eq_or_imp]

theorem length_others {ms : List Mutator} {m : Mutator} (hnd : (ms.map (·.id)).Nodup) (hm : m ∈ ms) :
    (ms.filter fun m' => some m'.id != some m.id).length + 1 = ms.length := by
  obtain ⟨pre, post, rfl⟩ := List.append_of_mem hm
  rw [List.map_append, List.map_cons, List.nodup_append, List.nodup_cons] at hnd
  obtain ⟨-, ⟨hpost, -⟩, hpre⟩ := hnd
  have h1 : (pre.filter fun m' => some m'.id != some m.id) = pre := List.filter_eq_self.2 fun m' hm' => by
    simpa using hpre m'.id (List.mem_map_of_mem hm') m.id (by simp)
  have h2 : (post.filter fun m' => some m'.id != some m.id) = post := List.filter_eq_self.2 fun m' hm' => by
    have hne : m'.id ≠ m.id := fun he => hpost (he ▸ List.mem_map_of_mem hm')
    simpa using hne
  rw [List.filter_append, List.filter_cons_of_neg (by simp), h1, h2, List.length_append, List.length_append,
    List.length_cons, Nat.add_assoc]

theorem length_filter_id {ms : List Mutator} {m : Mutator} (hnd : (ms.map (·.id)).Nodup) (hm : m ∈ ms) :
    (ms.filter (·.id != m.id)).length + 1 = ms.length := by
  have hsame : (fun m' : Mutator => m'.id != m.id) = fun m' => some m'.id != some m.id := by
    funext m'
    simp [bne]
  rw [hsame, length_others hnd hm]

theorem MutatorsSound.add {h h' : Heap} (hms : h.MutatorsSound) {m : Mutator} (hid : m.id = h.nextMutator)
    (hmutators : h'.mutators = h.mutators ++ [m]) (hissued : h'.nextMutator = h.nextMutator + 1) : h'.MutatorsSound := by
  refine ⟨?_, fun m' hm' => ?_⟩
  · rw [hmutators, List.map_append, List.map_cons, List.map_nil, ← List.concat_eq_append]
    refine hms.nodup.concat fun hmem => ?_
    obtain ⟨m', hm', he⟩ := List.mem_map.1 hmem
    exact Nat.ne_of_lt (hms.issued m' hm') (he.trans hid)
  · rw [hissued]
    rw [hmutators] at hm'
    rcases List.mem_append.1 hm' with hm' | hm'
    · exact Nat.lt_succ_of_lt (hms.issued m' hm')
    · rw [List.mem_singleton.1 hm', hid]
      exact Nat.lt_succ_self _

theorem MutatorsSound.filter {h h' : Heap} (hms : h.MutatorsSound) {p : Mutator → Bool}
    (hmutators : h'.mutators = h.mutators.filter p) (hissued : h'.nextMutator = h.nextMutator) : h'.MutatorsSound := by
  refine ⟨?_, fun m' hm' => ?_⟩
  · rw [hmutators]
    exact hms.nodup.sublist (List.filter_sublist.map _)
  · rw [hissued]
    rw [hmutators] at hm'
    exact hms.issued m' (List.mem_filter.1 hm').1

/-- A request of any kind is granted, and all mutators park with what they hold. -/
theorem park_spec {h : Heap} (hidle : h.safepoint.Idle h.mutators.length) (hms : h.MutatorsSound)
    (hload : ∀ m ∈ h.mutators, m.roots.Loads h.encoding) (id : Option MutatorId)
    (hid : ∀ i, id = some i → ∃ m ∈ h.mutators, m.id = i) :
    ∃ r s s', h.requester id = .ok r ∧ h.safepoint.request r = .ok (true, s) ∧ h.parkOthers id s = .ok s' ∧
      s'.running = 0 ∧ s'.parked + (if r.isMutator then 1 else 0) = h.mutators.length ∧
      s'.registered = h.mutators.length ∧ s'.epoch = h.safepoint.epoch ∧
      ∀ a, a ∈ s'.threadRoots ↔ a ≠ 0 ∧ ∃ m ∈ h.mutators, ∃ r ∈ m.roots.references, r.load h.encoding = .ok a := by
  obtain ⟨i1, i2, i3, i4, i5, i6⟩ := hidle
  cases id with
  | none =>
    have hall : (h.mutators.filter fun m => some m.id != none) = h.mutators := List.filter_eq_self.2 fun _ _ => rfl
    obtain ⟨s', hfold, h1, h2, h3, h4, h5, h6, h7⟩ := foldlM_arrive (e := h.encoding) h.mutators 0
      (s := { h.safepoint with requested := true, pending := true }) hload (by simpa using i3)
    refine ⟨.external, { h.safepoint with requested := true, pending := true }, s', rfl, by simp [Safepoint.request, i1],
      by rw [parkOthers, hall, hfold], h1, by rw [h2]; simp [i4, Requester.isMutator], by rw [h5]; exact i5, h6, ?_⟩
    intro a
    rw [h7]
    simp only [i6, List.not_mem_nil, false_or]
    constructor
    · rintro ⟨m, hm, hne, hr⟩
      exact ⟨hne, m, hm, hr⟩
    · rintro ⟨hne, m, hm, hr⟩
      exact ⟨m, hm, hne, hr⟩
  | some i =>
    obtain ⟨m₀, hm₀, rfl⟩ := hid i rfl
    obtain ⟨m, hm⟩ := mutator_of_mem hm₀
    obtain ⟨hmem, hmid⟩ := mutator_eq_ok hm
    obtain ⟨as, has, hroots⟩ := (hload m hmem).snapshot
    have hlen := length_others hms.nodup hmem
    rw [hmid] at hlen
    obtain ⟨s', hfold, h1, h2, h3, h4, h5, h6, h7⟩ := foldlM_arrive (e := h.encoding)
      (h.mutators.filter fun m' => some m'.id != some m₀.id) 0
      (s := { h.safepoint with
        requested := true, pending := true, running := h.safepoint.running - 1, threadRoots := h.safepoint.threadRoots ++ as })
      (fun m' hm' => hload m' (List.mem_filter.1 hm').1) (by simp only; omega)
    have hrun : ¬h.safepoint.running = 0 := by omega
    refine ⟨.mutator as, _, s', ?_, by simp only [Safepoint.request, i1, hrun, if_false, Bool.false_eq_true], hfold, h1, ?_,
      by rw [h5]; exact i5, h6, ?_⟩
    · simp only [requester, hm, has, bind, Except.bind, pure, Except.pure]
    · rw [h2]
      simp only [i4, Requester.isMutator, if_true]
      omega
    · intro a
      rw [h7, i6, List.nil_append, hroots]
      constructor
      · rintro (⟨hne, hr⟩ | ⟨m', hm', hne, hr⟩)
        · exact ⟨hne, m, hmem, hr⟩
        · exact ⟨hne, m', (List.mem_filter.1 hm').1, hr⟩
      · rintro ⟨hne, m', hm', hr⟩
        by_cases he : m'.id = m₀.id
        · have hsame : m' = m := List.inj_on_of_nodup_map hms.nodup hm' hmem (he.trans hmid.symm)
          exact .inl ⟨hne, hsame ▸ hr⟩
        · exact .inr ⟨m', List.mem_filter.2 ⟨hm', by simpa using he⟩, hne, hr⟩

/-- **Every mutator parks, the operation runs with the roots of all of them, and all run on.** -/
theorem stopTheWorld_spec {h : Heap} (hidle : h.safepoint.Idle h.mutators.length) (hms : h.MutatorsSound)
    (hload : ∀ m ∈ h.mutators, m.roots.Loads h.encoding) (id : Option MutatorId)
    (hid : ∀ i, id = some i → ∃ m ∈ h.mutators, m.id = i) :
    ∃ (roots : List Address) (s : Safepoint) (r : Requester),
      (∀ a, a ∈ roots ↔ a ≠ 0 ∧ ∃ m ∈ h.mutators, ∃ r ∈ m.roots.references, r.load h.encoding = .ok a) ∧
      (s.finish r).Idle h.mutators.length ∧ (s.finish r).epoch = h.safepoint.epoch + 1 ∧
      ∀ {α : Type} (op : List Address → HeapM α), (stopTheWorld id op).run h =
        match (op roots).run { h with safepoint := s } with
        | .ok a h' => .ok a { h' with safepoint := h'.safepoint.finish r }
        | .error f h' => .error f h' := by
  obtain ⟨r, s, s', hreq, hrequest, hpark, hrun, hparked, hreg, hepoch, hroots⟩ := park_spec hidle hms hload id hid
  refine ⟨s'.threadRoots, { s' with threadRoots := [] }, r, hroots, ⟨rfl, rfl, ?_, rfl, hreg, rfl⟩, ?_, ?_⟩
  · simp only [Safepoint.finish, hrun]
    omega
  · simp only [Safepoint.finish, hepoch]
  · intro α op
    have hbegin : s'.begin? = some (s'.threadRoots, { s' with threadRoots := [] }) := by
      rw [Safepoint.begin?, if_pos hrun]
    unfold stopTheWorld
    simp only [EStateM.run_bind, EStateM.run_get, hreq, hrequest, hpark, hbegin, run_lift_ok, EStateM.run_set,
      EStateM.run_pure, Bool.not_true, Bool.false_eq_true, if_false]
    cases (op s'.threadRoots).run { h with safepoint := { s' with threadRoots := [] } } <;> rfl

end Heap
end MarkSweep
