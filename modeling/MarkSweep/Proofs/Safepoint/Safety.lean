import MarkSweep.Proofs.Safepoint.Counts
/-!
# A stopped world

`Reached.safe` says that no counter of a safepoint goes below zero, in any interleaving of any number of threads, and
that an operation is alone while it runs: every mutator waits for its end.
-/
namespace MarkSweep
namespace World

/-! ## What a thread can do -/

theorem stepThread_of_isParked {s : Safepoint} {t : Thread} (h : t.isParked s.epoch = true) (a : Action) :
    stepThread s t a = .ok none := by
  unfold Thread.isParked at h
  split at h
  · next hs =>
    unfold stepThread
    cases a <;> simp only [hs] <;> first | rfl | exact if_pos (eq_of_beq h).symm
  · next hs =>
    unfold stepThread
    cases a <;> simp only [hs] <;> first | rfl | exact if_pos (eq_of_beq h).symm
  · cases h

theorem stepThread_register {s : Safepoint} (h : s.requested = true) (t : Thread) :
    stepThread s t .register = .ok none := by
  unfold stepThread Safepoint.register
  cases t.state <;> simp only [h, if_true] <;> rfl

theorem exists_parkThread {s : Safepoint} (h : 0 < s.running) (t : Thread) (roots : List Address) :
    ∃ o, parkThread s t roots = .ok o := by
  unfold parkThread Safepoint.arrive
  rw [if_neg (Nat.ne_of_gt h)]
  exact ⟨_, rfl⟩

/-- Where the mutators that a thread is are counted, none of its sections fails. -/
theorem exists_stepThread {s : Safepoint} {t : Thread}
    (hmut : ∀ e roots, t.state = .parked e roots → 0 < t.registrations)
    (hcount : t.isParked s.epoch = false → t.isOwn = false →
      t.registrations ≤ s.running ∧ t.registrations ≤ s.registered) (a : Action) : ∃ o, stepThread s t a = .ok o := by
  have hidle (hi : t.state = .idle) : t.registrations ≤ s.running ∧ t.registrations ≤ s.registered := by
    obtain ⟨-, hpark, hown⟩ := Thread.of_idle hi
    exact hcount (hpark _) hown
  unfold stepThread
  split
  · exact ⟨_, rfl⟩
  · next hi =>
    split
    · next hm =>
      have hm : 0 < t.registrations := of_decide_eq_true hm
      unfold Safepoint.unregister
      rw [if_neg (by have := hidle hi; omega)]
      exact ⟨_, rfl⟩
    · exact ⟨_, rfl⟩
  · next hi =>
    split
    · next hm =>
      split
      · exact exists_parkThread (Nat.lt_of_lt_of_le (of_decide_eq_true hm) (hidle hi).1) _ _
      · exact ⟨_, rfl⟩
    · exact ⟨_, rfl⟩
  · next r hi =>
    split
    · exact ⟨_, rfl⟩
    next hm =>
    have hle : r.count ≤ s.running := by
      cases r with
      | external => exact Nat.zero_le _
      | mutator roots =>
        have hpos : 0 < t.registrations := Nat.pos_of_ne_zero (by simpa [Requester.isMutator, Thread.isMutator] using hm)
        exact Nat.lt_of_lt_of_le hpos (hidle hi).1
    obtain ⟨raised, s', hrun⟩ := Safepoint.exists_request hle
    rw [hrun]
    exact ⟨_, rfl⟩
  · exact ⟨_, rfl⟩
  · exact ⟨_, rfl⟩
  · next e old _ hp =>
    split
    · exact ⟨_, rfl⟩
    next hover =>
    split
    · have hnot : t.isParked s.epoch = false ∧ t.isOwn = false := by
        simp [Thread.isParked, Thread.isOwn, hp, Ne.symm hover]
      exact exists_parkThread (Nat.lt_of_lt_of_le (hmut e old hp) (hcount hnot.1 hnot.2).1) _ _
    · exact ⟨_, rfl⟩
  · split <;> exact ⟨_, rfl⟩
  · exact ⟨_, rfl⟩

/-! ## The safepoint -/

/-- **The world is stopped** for the operation of thread number `i`. -/
structure Stopped (w : World) (i : Nat) : Prop where
  requested : w.safepoint.requested = true
  running : w.safepoint.running = 0
  /-- Every other mutator waits for the end of the epoch, and cannot do anything else. -/
  waits : ∀ j u, j ≠ i → w.threads[j]? = some u → 0 < u.registrations →
    u.isParked w.safepoint.epoch = true ∧ ∀ a, w.step j a = .ok none
  register : ∀ j, w.step j .register = .ok none
  alone : ∀ j u, j ≠ i → w.threads[j]? = some u → u.isActive = false

/-- **A safepoint keeps its promises.**  That no step fails says that no counter goes below zero. -/
structure Safe (w : World) : Prop where
  counts : w.safepoint.running + w.safepoint.parked + (if w.threads.any (·.isOwn) then 1 else 0) =
    w.safepoint.registered
  total : ∀ i a, ∃ o, w.step i a = .ok o
  pending : w.safepoint.pending = w.safepoint.requested
  executing : ∀ i t, w.threads[i]? = some t → t.isExecuting = true → w.Stopped i

namespace Counted

variable {w : World} {i : Nat} {t : Thread}

theorem running_le (h : w.Counted) (ht : t ∈ w.threads) : t.running w.safepoint.epoch ≤ w.safepoint.running := by
  rw [h.running]
  exact le_sum_map (·.running w.safepoint.epoch) ht

theorem exists_step (h : w.Counted) (i : Nat) (a : Action) : ∃ o, w.step i a = .ok o := by
  unfold World.step
  split
  · exact ⟨_, rfl⟩
  next t ht =>
  have hmem := List.mem_of_getElem? ht
  have hregistered := le_sum_map (·.registrations) hmem
  rw [← h.registered] at hregistered
  obtain ⟨o, hrun⟩ := exists_stepThread (s := w.safepoint) (t := t)
    (fun e roots hp => Nat.lt_of_succ_le (by simpa [Thread.isParked, Thread.isOwn, hp] using h.member t hmem e))
    (fun hpark hown => ⟨by simpa [Thread.running, hpark, hown] using h.running_le hmem, hregistered⟩) a
  rw [hrun]
  exact ⟨_, rfl⟩

theorem step_eq_none (ht : w.threads[i]? = some t) {a : Action} (h : stepThread w.safepoint t a = .ok none) :
    w.step i a = .ok none := by
  unfold World.step
  rw [ht]
  simp only [h]
  rfl

theorem stoppedFor (h : w.Counted) (ht : w.threads[i]? = some t) (hexec : t.isExecuting = true) : w.Stopped i := by
  have hmem := List.mem_of_getElem? ht
  have hact := Thread.isActive_of_isExecuting hexec
  have hreq := h.requested_of_active hmem hact
  have hzero := h.stopped t hmem hexec
  constructor
  case requested => exact hreq
  case running => exact hzero
  case waits =>
    intro j u hj hu hmut
    have hrun := h.running_le (List.mem_of_getElem? hu)
    have hown := Thread.isOwn_eq_false (h.alone ht hact hj hu)
    have hpark : u.isParked w.safepoint.epoch = true := by
      refine Bool.eq_true_of_not_eq_false fun hpark => ?_
      rw [Thread.running, hpark, hown, hzero] at hrun
      exact absurd hmut (Nat.not_lt_of_le hrun)
    exact ⟨hpark, fun a => step_eq_none hu (stepThread_of_isParked hpark a)⟩
  case register =>
    intro j
    cases hu : w.threads[j]? with
    | none => simp only [World.step, hu]; rfl
    | some u => exact step_eq_none hu (stepThread_register hreq u)
  case alone => exact fun j u hj hu => h.alone ht hact hj hu

/-- Every registered mutator runs, is parked or is the requester. -/
theorem counts (h : w.Counted) : w.safepoint.running + w.safepoint.parked +
    (w.threads.map fun t => t.isOwn.toNat).sum = w.safepoint.registered := by
  rw [h.running, h.parked, h.registered, ← List.sum_map_add, ← List.sum_map_add]
  refine congrArg List.sum (List.map_congr_left fun u hu => ?_)
  have := h.member u hu w.safepoint.epoch
  rw [Thread.running]
  omega

theorem sum_isOwn (h : w.Counted) :
    (w.threads.map fun t => t.isOwn.toNat).sum = if w.threads.any (·.isOwn) then 1 else 0 := by
  have hle : (w.threads.map fun t => t.isOwn.toNat).sum ≤ (w.threads.map fun t => t.isActive.toNat).sum :=
    List.sum_le_sum fun u _ => Bool.toNat_le_toNat Thread.isActive_of_isOwn
  have hone := Bool.toNat_le w.safepoint.requested
  rw [h.active] at hone
  split
  · next hany =>
    obtain ⟨u, hu, hown⟩ := List.any_eq_true.1 hany
    have := le_sum_map (fun t => t.isOwn.toNat) hu
    simp only [hown, Bool.toNat_true] at this
    omega
  · next hnone =>
    refine List.sum_eq_zero fun n hn => ?_
    obtain ⟨u, hu, rfl⟩ := List.mem_map.1 hn
    rw [Bool.eq_false_iff.2 fun hown => hnone (List.any_eq_true.2 ⟨u, hu, hown⟩), Bool.toNat_false]

end Counted

/-- **A safepoint is safe** for any number of threads, in any interleaving. -/
theorem Reached.safe {n : Nat} {w : World} (h : Reached n w) : w.Safe := by
  have hc := h.counted
  constructor
  case counts => exact hc.sum_isOwn ▸ hc.counts
  case total => exact hc.exists_step
  case pending => exact hc.pending
  case executing => exact fun _ _ ht hexec => hc.stoppedFor ht hexec

/-- An operation of a thread that is no mutator, with one mutator parked and one refused. -/
theorem exists_stopped : ∃ w t, Reached 3 w ∧ w.threads[2]? = some t ∧ t.isExecuting = true ∧ w.Safe := by
  have hrun : (((World.initial 3).run [(0, .register), (1, .register), (2, .request .external), (0, .park [8, 16]),
      (1, .request (.mutator [24])), (2, .begin)]).bind (·.threads[2]?)).any (·.isExecuting) = true := by decide +kernel
  obtain ⟨t, ht, hexec⟩ := (Option.any_eq_true _ _).1 hrun
  obtain ⟨w, hw, ht⟩ := Option.bind_eq_some_iff.1 ht
  have hreached := (Reached.initial (n := 3)).run hw
  exact ⟨w, t, hreached, ht, hexec, Reached.safe hreached⟩

end World
end MarkSweep
