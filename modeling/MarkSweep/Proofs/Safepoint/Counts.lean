import Mathlib.Algebra.Order.BigOperators.Group.List
import Mathlib.Algebra.Order.Group.Nat
import Mathlib.Algebra.Ring.Nat
import MarkSweep.Proofs.Safepoint.Sections
/-!
# What a safepoint counts

A safepoint knows of its mutators only how many run, how many are parked and how many there are.  `Counted` says which
threads these are; every section keeps it (`Counted.step`).
-/
namespace MarkSweep

/-! ## Threads -/

namespace Thread

/-- Waits for the end of the given epoch as a mutator that does not run. -/
def isParked (epoch : Nat) (t : Thread) : Bool :=
  match t.state with
  | .parked e _ | .refused e (.mutator _) => e == epoch
  | _ => false

def isExecuting (t : Thread) : Bool :=
  match t.state with
  | .executing _ _ => true
  | _ => false

/-- Its operation is requested, or runs. -/
def isActive (t : Thread) : Bool :=
  match t.state with
  | .requesting _ | .executing _ _ => true
  | _ => false

/-- Its operation is requested, or runs, and the thread is a mutator of it. -/
def isOwn (t : Thread) : Bool :=
  match t.state with
  | .requesting r | .executing r _ => r.isMutator
  | _ => false

/-- How many of the mutators that the thread is are running. -/
def running (epoch : Nat) (t : Thread) : Nat := t.registrations - ((t.isParked epoch).toNat + t.isOwn.toNat)

theorem isActive_of_isExecuting {t : Thread} (h : t.isExecuting = true) : t.isActive = true := by
  unfold isExecuting at h
  unfold isActive
  split at h
  · next hs => rw [hs]
  · cases h

theorem isActive_of_isOwn {t : Thread} (h : t.isOwn = true) : t.isActive = true := by
  unfold isOwn at h
  unfold isActive
  split at h
  · rfl
  · rfl
  · cases h

theorem isExecuting_eq_false {t : Thread} (h : t.isActive = false) : t.isExecuting = false :=
  Bool.eq_false_iff.2 fun hexec => by simp [isActive_of_isExecuting hexec] at h

theorem isOwn_eq_false {t : Thread} (h : t.isActive = false) : t.isOwn = false :=
  Bool.eq_false_iff.2 fun hown => by simp [isActive_of_isOwn hown] at h

theorem of_idle {t : Thread} (h : t.state = .idle) :
    t.isActive = false ∧ (∀ e, t.isParked e = false) ∧ t.isOwn = false := by
  simp [isActive, isParked, isOwn, h]

end Thread

/-! ## Sums over the threads -/

theorem sum_map_set {α : Type} (f : α → Nat) (b : α) : ∀ {l : List α} {i : Nat} {c : α}, l[i]? = some c →
    ((l.set i b).map f).sum + f c = (l.map f).sum + f b
  | x :: l, 0, c, h => by
    cases h
    simp only [List.set_cons_zero, List.map_cons, List.sum_cons]
    omega
  | x :: l, i + 1, c, h => by
    have := sum_map_set f b (l := l) h
    simp only [List.set_cons_succ, List.map_cons, List.sum_cons]
    omega

theorem le_sum_map {α : Type} (f : α → Nat) {l : List α} {c : α} (h : c ∈ l) : f c ≤ (l.map f).sum :=
  List.le_sum_of_mem (List.mem_map_of_mem h)

/-- What is in a list after one element was replaced: the new one, or one from another place. -/
theorem mem_set_cases {α : Type} {l : List α} {i : Nat} {b c : α} (h : c ∈ l.set i b) :
    c = b ∨ ∃ j, j ≠ i ∧ l[j]? = some c := by
  obtain ⟨j, hj⟩ := List.mem_iff_getElem?.1 h
  by_cases hij : i = j
  · subst hij
    rw [List.getElem?_set_self'] at hj
    cases hl : l[i]? with
    | none => rw [hl] at hj; cases hj
    | some x => rw [hl] at hj; cases hj; exact .inl rfl
  · rw [List.getElem?_set_ne hij] at hj
    exact .inr ⟨j, Ne.symm hij, hj⟩

namespace World

/-- **What the counters count.** -/
structure Counted (w : World) : Prop where
  pending : w.safepoint.pending = w.safepoint.requested
  registered : w.safepoint.registered = (w.threads.map (·.registrations)).sum
  running : w.safepoint.running = (w.threads.map (·.running w.safepoint.epoch)).sum
  parked : w.safepoint.parked = (w.threads.map fun t => (t.isParked w.safepoint.epoch).toNat).sum
  active : w.safepoint.requested.toNat = (w.threads.map fun t => t.isActive.toNat).sum
  member : ∀ t ∈ w.threads, ∀ e, (t.isParked e).toNat + t.isOwn.toNat ≤ t.registrations
  /-- Nobody waits for a later epoch, or for one without a request. -/
  waits : ∀ t ∈ w.threads, ∀ e, t.isParked e = true →
    e ≤ w.safepoint.epoch ∧ (e = w.safepoint.epoch → w.safepoint.requested = true)
  stopped : ∀ t ∈ w.threads, t.isExecuting = true → w.safepoint.running = 0

namespace Counted

variable {w : World} {i : Nat} {t t' : Thread} {s' : Safepoint} {completed : List (List Address)}

theorem initial (n : Nat) : (World.initial n).Counted := by
  constructor <;> simp [World.initial, Safepoint.initial, Thread.fresh, Thread.running, Thread.isParked, Thread.isOwn,
    Thread.isActive, Thread.isExecuting]

theorem requested_of_active (h : w.Counted) (ht : t ∈ w.threads) (hact : t.isActive = true) :
    w.safepoint.requested = true := by
  have := le_sum_map (fun u => u.isActive.toNat) ht
  rw [← h.active, hact] at this
  cases hr : w.safepoint.requested with
  | true => rfl
  | false => rw [hr] at this; cases this

theorem inactive (h : w.Counted) (free : w.safepoint.requested = false) (ht : t ∈ w.threads) : t.isActive = false :=
  Bool.eq_false_iff.2 fun hact => by simp [h.requested_of_active ht hact] at free

/-- A step within the epoch: each counter changes as what it counts of the thread does. -/
theorem update (h : w.Counted) (ht : w.threads[i]? = some t) (epoch : s'.epoch = w.safepoint.epoch)
    (pending : s'.pending = s'.requested)
    (registered : s'.registered + t.registrations = w.safepoint.registered + t'.registrations)
    (running : s'.running + t.running w.safepoint.epoch = w.safepoint.running + t'.running w.safepoint.epoch)
    (parked : s'.parked + (t.isParked w.safepoint.epoch).toNat =
      w.safepoint.parked + (t'.isParked w.safepoint.epoch).toNat)
    (active : s'.requested.toNat + t.isActive.toNat = w.safepoint.requested.toNat + t'.isActive.toNat)
    (member : ∀ e, (t'.isParked e).toNat + t'.isOwn.toNat ≤ t'.registrations)
    (waits : ∀ e, t'.isParked e = true → e = w.safepoint.epoch ∧ s'.requested = true)
    (requested : w.safepoint.requested = true → s'.requested = true)
    (stopped : w.safepoint.requested = true → w.safepoint.running = 0 → s'.running = 0)
    (executing : t'.isExecuting = true → s'.running = 0) : Counted ⟨s', w.threads.set i t', completed⟩ := by
  have hmem {u : Thread} (hu : u ∈ w.threads.set i t') : u ∈ w.threads ∨ u = t' := List.mem_or_eq_of_mem_set hu
  constructor
  case pending => exact pending
  case registered =>
    have := sum_map_set (·.registrations) t' ht
    have := h.registered
    dsimp only
    omega
  case running =>
    have := sum_map_set (·.running w.safepoint.epoch) t' ht
    have := h.running
    dsimp only
    rw [epoch]
    omega
  case parked =>
    have := sum_map_set (fun u => (u.isParked w.safepoint.epoch).toNat) t' ht
    have := h.parked
    dsimp only
    rw [epoch]
    omega
  case active =>
    have := sum_map_set (fun u => u.isActive.toNat) t' ht
    have := h.active
    dsimp only
    omega
  case member =>
    intro u hu e
    rcases hmem hu with hu | rfl
    · exact h.member u hu e
    · exact member e
  case waits =>
    intro u hu e he
    rw [epoch]
    rcases hmem hu with hu | rfl
    · exact ⟨(h.waits u hu e he).1, fun heq => requested ((h.waits u hu e he).2 heq)⟩
    · exact ⟨Nat.le_of_eq (waits e he).1, fun _ => (waits e he).2⟩
  case stopped =>
    intro u hu hexec
    rcases hmem hu with hu | rfl
    · exact stopped (h.requested_of_active hu (Thread.isActive_of_isExecuting hexec)) (h.stopped u hu hexec)
    · exact executing hexec

/-- There is one operation at a time. -/
theorem alone (h : w.Counted) (ht : w.threads[i]? = some t) (hact : t.isActive = true) {j : Nat} {u : Thread}
    (hj : j ≠ i) (hu : w.threads[j]? = some u) : u.isActive = false := by
  -- without thread `i` none would be active
  have hset := sum_map_set (fun v => v.isActive.toNat) Thread.fresh ht
  have hone : (w.threads.map fun v => v.isActive.toNat).sum ≤ 1 := by
    rw [← h.active]
    exact Bool.toNat_le _
  have hle : u.isActive.toNat ≤ _ := le_sum_map (fun v => v.isActive.toNat)
    (List.mem_of_getElem? ((List.getElem?_set_ne (Ne.symm hj)).trans hu : (w.threads.set i Thread.fresh)[j]? = some u))
  rw [hact] at hset
  simp only [Bool.toNat_true, show Thread.fresh.isActive = false from rfl, Bool.toNat_false] at hset
  cases hu' : u.isActive with
  | false => rfl
  | true =>
    rw [hu'] at hle
    simp only [Bool.toNat_true] at hle
    omega

/-- With the end of the epoch the parked mutators and the requester run again. -/
theorem finish (h : w.Counted) (ht : w.threads[i]? = some t) {r : Requester} {roots : List Address}
    (hs : t.state = .executing r roots) (hidle : t'.state = .idle) (hreg : t'.registrations = t.registrations) :
    Counted ⟨w.safepoint.finish r, w.threads.set i t', completed⟩ := by
  have hmem := List.mem_of_getElem? ht
  have hact : t.isActive = true := by simp [Thread.isActive, hs]
  have hown : t.isOwn.toNat = r.count := by cases r <;> simp [Thread.isOwn, hs, Requester.isMutator, Requester.count]
  have hpast {u : Thread} (hu : u ∈ w.threads) : u.isParked (w.safepoint.epoch + 1) = false := by
    refine Bool.eq_false_iff.2 fun hp => ?_
    exact absurd (h.waits u hu _ hp).1 (Nat.not_succ_le_self _)
  have hthread {u : Thread} (hu : u ∈ w.threads.set i t') :
      u.state = .idle ∨ u ∈ w.threads ∧ u.isActive = false := by
    rcases mem_set_cases hu with rfl | ⟨j, hj, hu⟩
    · exact .inl hidle
    · exact .inr ⟨List.mem_of_getElem? hu, h.alone ht hact hj hu⟩
  -- nobody is parked in the next epoch, so that all that were are running in it
  have hrunning : (w.threads.map (·.running (w.safepoint.epoch + 1))).sum =
      w.safepoint.running + w.safepoint.parked := by
    rw [h.running, h.parked, ← List.sum_map_add]
    refine congrArg List.sum (List.map_congr_left fun u hu => ?_)
    have := h.member u hu w.safepoint.epoch
    rw [Thread.running, Thread.running, hpast hu, Bool.toNat_false]
    omega
  constructor
  case pending => rfl
  case registered =>
    have := sum_map_set (·.registrations) t' ht
    have := h.registered
    simp only [Safepoint.finish]
    omega
  case running =>
    have hset := sum_map_set (·.running (w.safepoint.epoch + 1)) t' ht
    have hle := h.member t hmem (w.safepoint.epoch + 1)
    have hwas : t.running (w.safepoint.epoch + 1) = t.registrations - r.count := by
      rw [Thread.running, hpast hmem, hown, Bool.toNat_false, Nat.zero_add]
    have hruns : t'.running (w.safepoint.epoch + 1) = t.registrations := by
      simp [Thread.running, Thread.isParked, Thread.isOwn, hidle, hreg]
    rw [hown] at hle
    simp only [Safepoint.finish, Requester.count_eq]
    omega
  case parked =>
    refine (List.sum_eq_zero fun n hn => ?_).symm
    obtain ⟨u, hu, rfl⟩ := List.mem_map.1 hn
    rcases hthread hu with hu | ⟨hu, -⟩
    · simp [Thread.isParked, hu]
    · simp [Safepoint.finish, hpast hu]
  case active =>
    refine (List.sum_eq_zero fun n hn => ?_).symm
    obtain ⟨u, hu, rfl⟩ := List.mem_map.1 hn
    rcases hthread hu with hu | ⟨-, hu⟩
    · simp [Thread.isActive, hu]
    · simp [hu]
  case member =>
    intro u hu e
    rcases hthread hu with hu | ⟨hu, -⟩
    · simp [Thread.isParked, Thread.isOwn, hu]
    · exact h.member u hu e
  case waits =>
    intro u hu e he
    rcases hthread hu with hu | ⟨hu, -⟩
    · simp [Thread.isParked, hu] at he
    · have hle := (h.waits u hu e he).1
      refine ⟨Nat.le_succ_of_le hle, fun heq => ?_⟩
      rw [heq] at hle
      exact absurd hle (Nat.not_succ_le_self _)
  case stopped =>
    intro u hu hexec
    rcases hthread hu with hu | ⟨-, hu⟩
    · simp [Thread.isExecuting, hu] at hexec
    · rw [Thread.isExecuting_eq_false hu] at hexec
      cases hexec

/-- A mutator of the thread stops for the requested operation. -/
theorem stop (h : w.Counted) (ht : w.threads[i]? = some t) (hact : t.isActive = false)
    (hpark : t.isParked w.safepoint.epoch = false) (hown : t.isOwn = false) (hmut : 0 < t.registrations)
    (hreq : w.safepoint.requested = true) (hrun : 0 < w.safepoint.running) (hreg : t'.registrations = t.registrations)
    (hpark' : ∀ e, t'.isParked e = (w.safepoint.epoch == e)) (hown' : t'.isOwn = false) (hact' : t'.isActive = false)
    (roots : List Address) : Counted ⟨{ w.safepoint with
      running := w.safepoint.running - 1
      parked := w.safepoint.parked + 1
      threadRoots := w.safepoint.threadRoots ++ roots }, w.threads.set i t', completed⟩ := by
  refine h.update ht rfl h.pending ?_ ?_ ?_ ?_ ?_ ?_ id ?_ ?_
  · rw [hreg]
  · simp only [Thread.running, hpark, hpark', hown, hown', beq_self_eq_true, Bool.toNat_false, Bool.toNat_true]
    omega
  · simp [hpark, hpark']
  · rw [hact, hact']
  · intro e
    rw [hown', hreg]
    exact Nat.le_trans (Bool.toNat_le _) hmut
  · intro e he
    rw [hpark'] at he
    exact ⟨(eq_of_beq he).symm, hreq⟩
  · intro _ hzero
    omega
  · intro hexec
    rw [Thread.isExecuting_eq_false hact'] at hexec
    cases hexec

/-- A thread comes to rest, and may register or unregister. -/
theorem rest (h : w.Counted) (ht : w.threads[i]? = some t) (hact : t.isActive = false)
    (hpark : t.isParked w.safepoint.epoch = false) (hown : t.isOwn = false) (hidle : t'.state = .idle) {m k : Nat}
    (registered : m + t.registrations = w.safepoint.registered + t'.registrations)
    (running : k + t.registrations = w.safepoint.running + t'.registrations)
    (stopped : w.safepoint.requested = true → w.safepoint.running = 0 → k = 0) :
    Counted ⟨{ w.safepoint with registered := m, running := k }, w.threads.set i t', completed⟩ := by
  refine h.update ht rfl h.pending registered ?_ ?_ ?_ ?_ ?_ id stopped ?_
  · rw [Thread.running, hpark, hown]
    simpa [Thread.running, Thread.isParked, Thread.isOwn, hidle] using running
  · rw [hpark]
    simp [Thread.isParked, hidle]
  · rw [hact]
    simp [Thread.isActive, hidle]
  · simp [Thread.isParked, Thread.isOwn, hidle]
  · simp [Thread.isParked, hidle]
  · simp [Thread.isExecuting, hidle]

theorem step (h : w.Counted) {w' : World} {a : Action} (hstep : w.step i a = .ok (some w')) : w'.Counted := by
  obtain ⟨t, s', t', ht, hsec, rfl⟩ := step_eq_ok hstep
  have hmem := List.mem_of_getElem? ht
  cases hsec with
  | register idle free =>
    obtain ⟨hact, hpark, hown⟩ := Thread.of_idle idle
    refine h.rest ht hact (hpark _) hown ?_ ?_ ?_ ?_
    · exact idle
    · exact Nat.add_right_comm _ _ _
    · exact Nat.add_right_comm _ _ _
    · intro hreq
      rw [free] at hreq
      cases hreq
  | unregister idle mutator running registered =>
    obtain ⟨hact, hpark, hown⟩ := Thread.of_idle idle
    refine h.rest ht hact (hpark _) hown ?_ ?_ ?_ ?_
    · exact idle
    · dsimp only
      omega
    · dsimp only
      omega
    · intro _ hz
      rw [hz]
  | pass idle free =>
    obtain ⟨hact, hpark, hown⟩ := Thread.of_idle idle
    exact h.rest ht hact (hpark _) hown idle rfl rfl fun _ hz => hz
  | leave parked ended free =>
    refine h.rest ht ?_ ?_ ?_ rfl rfl rfl fun _ hz => hz
    all_goals simp [Thread.isActive, Thread.isParked, Thread.isOwn, parked, Ne.symm ended]
  | @giveUp e r roots refused ended =>
    refine h.rest ht ?_ ?_ ?_ rfl rfl rfl fun _ hz => hz
    all_goals cases r <;> simp [Thread.isActive, Thread.isParked, Thread.isOwn, refused, Ne.symm ended]
  | park idle mutator pending running =>
    obtain ⟨hact, hpark, hown⟩ := Thread.of_idle idle
    exact h.stop ht hact (hpark _) hown mutator pending running (by rfl) (fun _ => by rfl) (by rfl) (by rfl) _
  | @repark e old roots parked ended pending running =>
    -- it waited in an epoch that is over, so it counts as running, and while it waited it could not unregister
    have hmut : 1 ≤ t.registrations := by
      simpa [Thread.isParked, Thread.isOwn, parked] using h.member t hmem e
    refine h.stop ht ?_ ?_ ?_ hmut pending running ?_ ?_ ?_ ?_ _
    all_goals simp [Thread.isActive, Thread.isParked, Thread.isOwn, parked, Ne.symm ended]
  | @refuse r idle mutator pending running =>
    cases r with
    | external =>
      refine h.update ht rfl h.pending rfl ?_ ?_ ?_ ?_ ?_ id (fun _ hz => hz) ?_
      all_goals simp [Thread.isActive, Thread.isParked, Thread.isOwn, Thread.isExecuting, Thread.running, idle,
        Requester.count]
    | mutator roots =>
      obtain ⟨hact, hpark, hown⟩ := Thread.of_idle idle
      exact h.stop ht hact (hpark _) hown mutator pending running (by rfl) (fun _ => by rfl) (by rfl) (by rfl) _
  | @raise r idle mutator free running =>
    have hown : (Thread.isOwn { t with state := .requesting r }).toNat = r.count := by cases r <;> rfl
    refine h.update ht rfl rfl rfl ?_ ?_ ?_ ?_ ?_ ?_ ?_ ?_
    · rw [Thread.running, Thread.running, hown]
      simp [Thread.isParked, Thread.isOwn, idle]
      omega
    · simp [Thread.isParked, idle]
    · simp [Thread.isActive, idle, free]
    · intro e
      rw [hown]
      simpa [Thread.isParked] using mutator
    · simp [Thread.isParked]
    · exact fun _ => rfl
    · intro hreq
      rw [free] at hreq
      cases hreq
    · simp [Thread.isExecuting]
  | @begin r requesting stopped =>
    refine h.update ht rfl h.pending rfl ?_ ?_ ?_ ?_ ?_ id (fun _ hz => hz) fun _ => stopped
    · simp [Thread.running, Thread.isParked, Thread.isOwn, requesting]
    · simp [Thread.isParked, requesting]
    · simp [Thread.isActive, requesting]
    · simpa [Thread.isParked, Thread.isOwn, requesting] using h.member t hmem
    · simp [Thread.isParked]
  | finish executing => exact h.finish ht executing rfl rfl

end Counted

theorem Reached.counted {n : Nat} {w : World} (h : Reached n w) : w.Counted := by
  induction h with
  | initial => exact .initial n
  | step _ run ih => exact ih.step run

end World
end MarkSweep
