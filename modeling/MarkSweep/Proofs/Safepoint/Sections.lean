import MarkSweep.Proofs.Run
import MarkSweep.Safepoint.World
/-!
# What a locked section does

`Section` lists what a section of a thread can do to the safepoint and to the thread, with what it relies on;
`step_eq_ok` says that a step of a world does nothing else.  `Reached` are the worlds that any number of threads make,
in any interleaving.
-/
namespace MarkSweep

namespace Requester

/-- How many mutators stop with the request. -/
def count : Requester → Nat
  | external => 0
  | mutator _ => 1

theorem count_eq (r : Requester) : (if r.isMutator then 1 else 0) = r.count := by cases r <;> rfl

end Requester

namespace Safepoint

variable {s s' : Safepoint} {r : Requester} {roots : List Address} {raised : Bool}

theorem arrive_eq_ok (h : s.arrive roots = .ok s') : 0 < s.running ∧
    s' = { s with running := s.running - 1, parked := s.parked + 1, threadRoots := s.threadRoots ++ roots } := by
  unfold arrive at h
  split at h
  · cases h
  · next hne => cases h; exact ⟨Nat.pos_of_ne_zero hne, rfl⟩

theorem unregister_eq_ok (h : s.unregister = .ok s') : 0 < s.running ∧ 0 < s.registered ∧
    s' = { s with running := s.running - 1, registered := s.registered - 1 } := by
  unfold unregister at h
  split at h
  · cases h
  · next hne =>
    rw [not_or] at hne
    cases h
    exact ⟨Nat.pos_of_ne_zero hne.1, Nat.pos_of_ne_zero hne.2, rfl⟩

theorem request_eq_ok (h : s.request r = .ok (raised, s')) : r.count ≤ s.running ∧ raised = !s.requested ∧
    s' = { s with
      requested := true
      pending := if s.requested then s.pending else true
      running := s.running - r.count
      parked := if s.requested then s.parked + r.count else s.parked
      threadRoots := s.threadRoots ++ r.roots } := by
  obtain ⟨requested, pending, running, parked, registered, epoch, threadRoots⟩ := s
  unfold request at h
  cases requested <;> cases r <;> simp only [Bool.false_eq_true, if_false, if_true] at h
  case false.external => cases h; simp [Requester.count, Requester.roots]
  case false.mutator roots =>
    split at h
    · cases h
    · next hne => cases h; exact ⟨Nat.pos_of_ne_zero hne, rfl, rfl⟩
  case true.external => cases h; simp [Requester.count, Requester.roots]
  case true.mutator roots =>
    cases harrive : Safepoint.arrive ⟨true, pending, running, parked, registered, epoch, threadRoots⟩ roots with
    | error f => rw [harrive] at h; cases h
    | ok s₁ =>
      rw [harrive] at h
      cases h
      obtain ⟨hpos, rfl⟩ := arrive_eq_ok harrive
      exact ⟨hpos, rfl, rfl⟩

theorem exists_request (h : r.count ≤ s.running) : ∃ raised s', s.request r = .ok (raised, s') := by
  unfold request arrive
  cases r with
  | external => split <;> exact ⟨_, _, rfl⟩
  | mutator roots =>
    have hne : s.running ≠ 0 := Nat.ne_of_gt h
    simp only [if_neg hne]
    split <;> exact ⟨_, _, rfl⟩

end Safepoint

namespace World

/-- What a section of a thread can do. -/
inductive Section (s : Safepoint) (t : Thread) : Action → Safepoint → Thread → Prop
  | register (idle : t.state = .idle) (free : s.requested = false) : Section s t .register
      { s with running := s.running + 1, registered := s.registered + 1 } { t with registrations := t.registrations + 1 }
  | unregister (idle : t.state = .idle) (mutator : 0 < t.registrations) (running : 0 < s.running)
      (registered : 0 < s.registered) : Section s t .unregister
        { s with running := s.running - 1, registered := s.registered - 1 }
        { t with registrations := t.registrations - 1 }
  | pass {roots : List Address} (idle : t.state = .idle) (free : s.requested = false) : Section s t (.park roots) s t
  | park {roots : List Address} (idle : t.state = .idle) (mutator : 0 < t.registrations) (pending : s.requested = true)
      (running : 0 < s.running) : Section s t (.park roots)
        { s with running := s.running - 1, parked := s.parked + 1, threadRoots := s.threadRoots ++ roots }
        { t with state := .parked s.epoch roots, parks := t.parks + 1 }
  | raise {r : Requester} (idle : t.state = .idle) (mutator : r.count ≤ t.registrations) (free : s.requested = false)
      (running : r.count ≤ s.running) : Section s t (.request r)
        { s with
          requested := true, pending := true, running := s.running - r.count, threadRoots := s.threadRoots ++ r.roots }
        { t with state := .requesting r }
  | refuse {r : Requester} (idle : t.state = .idle) (mutator : r.count ≤ t.registrations) (pending : s.requested = true)
      (running : r.count ≤ s.running) : Section s t (.request r)
        { s with
          running := s.running - r.count, parked := s.parked + r.count, threadRoots := s.threadRoots ++ r.roots }
        { t with state := .refused s.epoch r }
  | begin {r : Requester} (requesting : t.state = .requesting r) (stopped : s.running = 0) :
      Section s t .begin { s with threadRoots := [] } { t with state := .executing r s.threadRoots }
  | finish {r : Requester} {roots : List Address} (executing : t.state = .executing r roots) :
      Section s t .finish (s.finish r) { t with state := .idle }
  | repark {e : Nat} {old roots : List Address} (parked : t.state = .parked e old) (ended : s.epoch ≠ e)
      (pending : s.requested = true) (running : 0 < s.running) : Section s t (.wake roots)
        { s with running := s.running - 1, parked := s.parked + 1, threadRoots := s.threadRoots ++ roots }
        { t with state := .parked s.epoch roots, parks := t.parks + 1 }
  | leave {e : Nat} {old roots : List Address} (parked : t.state = .parked e old) (ended : s.epoch ≠ e)
      (free : s.requested = false) : Section s t (.wake roots) s { t with state := .idle }
  | giveUp {e : Nat} {r : Requester} {roots : List Address} (refused : t.state = .refused e r) (ended : s.epoch ≠ e) :
      Section s t (.wake roots) s { t with state := .idle, refusals := t.refusals + 1 }

variable {s s' : Safepoint} {t t' : Thread} {a : Action}

theorem parkThread_eq_ok {roots : List Address} (h : parkThread s t roots = .ok (some (s', t'))) : 0 < s.running ∧
    s' = { s with running := s.running - 1, parked := s.parked + 1, threadRoots := s.threadRoots ++ roots } ∧
    t' = { t with state := .parked s.epoch roots, parks := t.parks + 1 } := by
  obtain ⟨s₁, harrive, h⟩ := except_bind_eq_ok h
  obtain ⟨hpos, rfl⟩ := Safepoint.arrive_eq_ok harrive
  cases h
  exact ⟨hpos, rfl, rfl⟩

theorem section_of_stepThread (h : stepThread s t a = .ok (some (s', t'))) : Section s t a s' t' := by
  unfold stepThread at h
  split at h
  · next hidle =>
    unfold Safepoint.register at h
    split at h
    · cases h
    · next hfree => cases h; exact .register hidle (by simpa using hfree)
  · next hidle =>
    split at h
    · next hmut =>
      obtain ⟨s₁, hrun, h⟩ := except_bind_eq_ok h
      obtain ⟨hrunning, hregistered, rfl⟩ := Safepoint.unregister_eq_ok hrun
      cases h
      exact .unregister hidle (of_decide_eq_true hmut) hrunning hregistered
    · cases h
  · next hidle =>
    split at h
    · next hmut =>
      split at h
      · next hpending =>
        obtain ⟨hrunning, rfl, rfl⟩ := parkThread_eq_ok h
        exact .park hidle (of_decide_eq_true hmut) hpending hrunning
      · next hfree => cases h; exact .pass hidle (by simpa using hfree)
    · cases h
  · next r hidle =>
    split at h
    · cases h
    next hmut =>
    have hcount : r.count ≤ t.registrations := by
      cases r with
      | external => exact Nat.zero_le _
      | mutator roots => exact Nat.pos_of_ne_zero (by simpa [Requester.isMutator, Thread.isMutator] using hmut)
    obtain ⟨⟨raised, s₁⟩, hrun, h⟩ := except_bind_eq_ok h
    obtain ⟨hrunning, rfl, rfl⟩ := Safepoint.request_eq_ok hrun
    cases h
    cases hr : s.requested with
    | false => exact .raise hidle hcount hr hrunning
    | true =>
      have := Section.refuse (r := r) hidle hcount hr hrunning
      simpa [hr] using this
  · next r hreq =>
    unfold Safepoint.begin? at h
    split at h
    · next hzero => cases h; exact .begin hreq hzero
    · cases h
  · next hexec => cases h; exact .finish hexec
  · next hparked =>
    split at h
    · cases h
    next hover =>
    split at h
    · next hpending =>
      obtain ⟨hrunning, rfl, rfl⟩ := parkThread_eq_ok h
      exact .repark hparked hover hpending hrunning
    · next hfree => cases h; exact .leave hparked hover (by simpa using hfree)
  · next hrefused =>
    split at h
    · cases h
    · next hover => cases h; exact .giveUp hrefused hover
  · cases h

/-- **A step is a section of one thread**; the other threads stay as they are. -/
theorem step_eq_ok {w w' : World} {i : Nat} (h : w.step i a = .ok (some w')) :
    ∃ t s' t', w.threads[i]? = some t ∧ Section w.safepoint t a s' t' ∧
      w' = ⟨s', w.threads.set i t', w.completed ++ completedBy t a⟩ := by
  unfold step at h
  split at h
  · cases h
  next t ht =>
  obtain ⟨o, hrun, h⟩ := except_bind_eq_ok h
  cases o with
  | none => cases h
  | some p => cases h; exact ⟨t, p.1, p.2, ht, section_of_stepThread hrun, rfl⟩

/-- The worlds that `n` threads reach from a new safepoint. -/
inductive Reached (n : Nat) : World → Prop
  | initial : Reached n (.initial n)
  | step {w w' : World} {i : Nat} {a : Action} (reached : Reached n w) (run : w.step i a = .ok (some w')) : Reached n w'

theorem run_cons {w w' : World} {i : Nat} {schedule : List (Nat × Action)} (h : w.run ((i, a) :: schedule) = some w') :
    ∃ w₁, w.step i a = .ok (some w₁) ∧ w₁.run schedule = some w' := by
  obtain ⟨w₁, hstep, hrun⟩ := Option.bind_eq_some_iff.1 h
  refine ⟨w₁, ?_, hrun⟩
  change (w.step i a).toOption.join = some w₁ at hstep
  cases hw : w.step i a with
  | error f => rw [hw] at hstep; cases hstep
  | ok o => rw [hw] at hstep; exact congrArg Except.ok hstep

theorem Reached.run {n : Nat} {w w' : World} {schedule : List (Nat × Action)} (h : Reached n w)
    (hrun : w.run schedule = some w') : Reached n w' := by
  induction schedule generalizing w with
  | nil => cases hrun; exact h
  | cons p schedule ih =>
    obtain ⟨w₁, hstep, hrun⟩ := run_cons hrun
    exact ih (.step h hstep) hrun

end World
end MarkSweep
