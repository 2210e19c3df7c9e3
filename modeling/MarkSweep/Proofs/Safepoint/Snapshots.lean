import MarkSweep.Proofs.Safepoint.Safety
/-!
# The roots an operation sees

A thread publishes a snapshot of its roots when it parks for an operation or asks for one.  `Traced` are the worlds that
threads reach, with all snapshots published on the way.  `Traced.delivered` says that an operation sees exactly one
snapshot of each mutator, and that each snapshot goes to the operation of its epoch and to no other one.
-/
namespace MarkSweep

/-- The roots that a thread published in an epoch. -/
structure Snapshot where
  epoch : Nat
  thread : Nat
  roots : List Address

/-- The snapshot that a requester publishes. -/
def Requester.snapshot? : Requester → Option (List Address)
  | external => none
  | mutator roots => some roots

/-- The snapshot that a thread has published in an epoch, as far as its state tells. -/
def Thread.snapshot? (epoch : Nat) (t : Thread) : Option (List Address) :=
  match t.state with
  | .idle => none
  | .parked e roots => if e = epoch then some roots else none
  | .refused e r => if e = epoch then r.snapshot? else none
  | .requesting r | .executing r _ => r.snapshot?

theorem Thread.length_snapshot? (epoch : Nat) (t : Thread) :
    (t.snapshot? epoch).toList.length = (t.isParked epoch).toNat + t.isOwn.toNat := by
  obtain ⟨state, _, _, _⟩ := t
  cases state with
  | idle => rfl
  | parked e roots =>
    by_cases he : e = epoch <;> simp [snapshot?, isParked, isOwn, he, beq_eq_decide]
  | refused e r =>
    by_cases he : e = epoch <;> cases r <;> simp [snapshot?, isParked, isOwn, he, Requester.snapshot?, beq_eq_decide]
  | requesting r => cases r <;> rfl
  | executing r roots => cases r <;> rfl

/-- The roots published in an epoch. -/
def rootsOf (log : List Snapshot) (epoch : Nat) : List Address :=
  ((log.filter (·.epoch == epoch)).map (·.roots)).flatten

/-- The snapshots that one thread published in an epoch. -/
def snapshotsOf (log : List Snapshot) (epoch thread : Nat) : List (List Address) :=
  (log.filter fun x => x.epoch == epoch && x.thread == thread).map (·.roots)

section Log

variable {log : List Snapshot} {e : Nat}

theorem rootsOf_append (x : Snapshot) :
    rootsOf (log ++ [x]) e = rootsOf log e ++ if x.epoch = e then x.roots else [] := by
  unfold rootsOf
  by_cases h : x.epoch = e <;> simp [h]

theorem snapshotsOf_append (x : Snapshot) (j : Nat) :
    snapshotsOf (log ++ [x]) e j = snapshotsOf log e j ++ if x.epoch = e ∧ x.thread = j then [x.roots] else [] := by
  unfold snapshotsOf
  by_cases h : x.epoch = e ∧ x.thread = j <;> simp [h]

theorem rootsOf_eq_nil (h : ∀ x ∈ log, x.epoch ≠ e) : rootsOf log e = [] := by
  unfold rootsOf
  rw [List.filter_eq_nil_iff.2 fun x hx => by simpa using h x hx]
  rfl

theorem snapshotsOf_eq_nil (h : ∀ x ∈ log, x.epoch ≠ e) (j : Nat) : snapshotsOf log e j = [] := by
  unfold snapshotsOf
  rw [List.filter_eq_nil_iff.2 fun x hx => by simp [h x hx]]
  rfl

end Log

theorem filterMap_set_eq {α β : Type} (f : α → Option β) {b c : α} (hf : f b = f c) :
    ∀ {l : List α} {i : Nat}, l[i]? = some c → (l.set i b).filterMap f = l.filterMap f
  | x :: l, 0, h => by
    cases h
    rw [List.set_cons_zero, List.filterMap_cons, List.filterMap_cons, hf]
  | x :: l, i + 1, h => by
    rw [List.set_cons_succ, List.filterMap_cons, List.filterMap_cons, filterMap_set_eq f hf (l := l) h]

theorem filterMap_set_perm {α β : Type} (f : α → Option β) {b c : α} {y : β} (hb : f b = some y)
    (hc : f c = none) :
    ∀ {l : List α} {i : Nat}, l[i]? = some c → ((l.set i b).filterMap f).Perm (l.filterMap f ++ [y])
  | x :: l, 0, h => by
    cases h
    rw [List.set_cons_zero, List.filterMap_cons_some hb, List.filterMap_cons_none hc]
    exact (List.perm_append_singleton _ _).symm
  | x :: l, i + 1, h => by
    have ih := filterMap_set_perm f hb hc (l := l) h
    rw [List.set_cons_succ]
    cases hx : f x with
    | none => rwa [List.filterMap_cons_none hx, List.filterMap_cons_none hx]
    | some z =>
      rw [List.filterMap_cons_some hx, List.filterMap_cons_some hx, List.cons_append]
      exact ih.cons z

namespace World

/-- What a section of thread number `i` publishes. -/
def published (s : Safepoint) (i : Nat) (t : Thread) (a : Action) : List Snapshot :=
  match a, t.state with
  | .park roots, _ => if s.requested then [⟨s.epoch, i, roots⟩] else []
  | .request (.mutator roots), _ => [⟨s.epoch, i, roots⟩]
  | .wake roots, .parked _ _ => if s.requested then [⟨s.epoch, i, roots⟩] else []
  | _, _ => []

/-- The worlds that `n` threads reach from a new safepoint, each with the snapshots published on the way to it. -/
inductive Traced (n : Nat) : World → List Snapshot → Prop
  | initial : Traced n (.initial n) []
  | step {w w' : World} {log : List Snapshot} {i : Nat} {t : Thread} {a : Action} (traced : Traced n w log)
      (member : w.threads[i]? = some t) (run : w.step i a = .ok (some w')) :
      Traced n w' (log ++ published w.safepoint i t a)

/-- **What the operation of thread number `i` sees.** -/
structure Gathered (w : World) (log : List Snapshot) (i : Nat) (r : Requester) (roots : List Address) : Prop where
  /-- The roots are the snapshots of the epoch, in the order in which they were published. -/
  slice : roots = rootsOf log w.safepoint.epoch
  perm : roots.Perm (w.threads.filterMap (·.snapshot? w.safepoint.epoch)).flatten
  /-- A thread published as many snapshots as it is registered mutators, which is at most once. -/
  once : ∀ j u, w.threads[j]? = some u →
    snapshotsOf log w.safepoint.epoch j = (u.snapshot? w.safepoint.epoch).toList ∧
      (u.snapshot? w.safepoint.epoch).toList.length = u.registrations
  own : ∀ t, w.threads[i]? = some t → t.snapshot? w.safepoint.epoch = r.snapshot?
  /-- Every other mutator parked, or was refused, with its snapshot. -/
  others : ∀ j u, j ≠ i → w.threads[j]? = some u → 0 < u.registrations →
    ∃ shot, u.snapshot? w.safepoint.epoch = some shot ∧
      (u.state = .parked w.safepoint.epoch shot ∨ u.state = .refused w.safepoint.epoch (.mutator shot))

/-- **Every snapshot goes to the operation of its epoch**, and to no other one. -/
structure Delivered (w : World) (log : List Snapshot) : Prop where
  executing : ∀ i t r roots, w.threads[i]? = some t → t.state = .executing r roots → w.Gathered log i r roots
  completed : w.completed = (List.range w.safepoint.epoch).map (rootsOf log)
  /-- The roots of the epoch wait for its operation; once it has them, no more are published. -/
  collected : w.safepoint.threadRoots =
    if w.threads.any (·.isExecuting) then [] else rootsOf log w.safepoint.epoch
  epochs : ∀ x ∈ log, x.epoch ≤ w.safepoint.epoch ∧ (x.epoch = w.safepoint.epoch → w.safepoint.requested = true)
  idle : w.safepoint.requested = false → w.safepoint.threadRoots = []

/-- What the trace and the state of a world have in common. -/
structure Recorded (w : World) (log : List Snapshot) : Prop where
  counted : w.Counted
  epochs : ∀ x ∈ log, x.epoch ≤ w.safepoint.epoch ∧ (x.epoch = w.safepoint.epoch → w.safepoint.requested = true)
  completed : w.completed = (List.range w.safepoint.epoch).map (rootsOf log)
  collected : (∀ t ∈ w.threads, t.isExecuting = false) → w.safepoint.threadRoots = rootsOf log w.safepoint.epoch
  taken : ∀ t ∈ w.threads, ∀ r roots, t.state = .executing r roots →
    w.safepoint.threadRoots = [] ∧ roots = rootsOf log w.safepoint.epoch
  standing : ∀ j t, w.threads[j]? = some t →
    snapshotsOf log w.safepoint.epoch j = (t.snapshot? w.safepoint.epoch).toList
  perm : (rootsOf log w.safepoint.epoch).Perm (w.threads.filterMap (·.snapshot? w.safepoint.epoch)).flatten

/-- Nobody has a snapshot in an epoch before its operation is requested. -/
theorem Counted.snapshot?_eq_none {w : World} (h : w.Counted) (free : w.safepoint.requested = false) {t : Thread}
    (ht : t ∈ w.threads) : t.snapshot? w.safepoint.epoch = none := by
  have hlen := t.length_snapshot? w.safepoint.epoch
  have hpark : t.isParked w.safepoint.epoch = false := by
    refine Bool.eq_false_iff.2 fun hp => ?_
    have := (h.waits t ht _ hp).2 rfl
    rw [free] at this
    cases this
  rw [hpark, Thread.isOwn_eq_false (h.inactive free ht)] at hlen
  cases hs : t.snapshot? w.safepoint.epoch with
  | none => rfl
  | some shot => rw [hs] at hlen; cases hlen

theorem Counted.none_executing {w : World} (h : w.Counted)
    (hs : 0 < w.safepoint.running ∨ w.safepoint.requested = false) : ∀ t ∈ w.threads, t.isExecuting = false := by
  intro t ht
  rcases hs with hpos | hfree
  · exact Bool.eq_false_iff.2 fun hexec => Nat.ne_of_gt hpos (h.stopped t ht hexec)
  · exact Thread.isExecuting_eq_false (h.inactive hfree ht)

namespace Recorded

variable {w : World} {log : List Snapshot} {i : Nat} {t t' : Thread} {s' : Safepoint}

theorem initial (n : Nat) : (World.initial n).Recorded [] := by
  have hfresh {t : Thread} (ht : t ∈ (World.initial n).threads) : t = .fresh := (List.mem_replicate.1 ht).2
  constructor
  case counted => exact .initial n
  case epochs => exact fun x hx => by cases hx
  case completed => rfl
  case collected => exact fun _ => rfl
  case taken =>
    intro t ht r roots hs
    rw [hfresh ht] at hs
    cases hs
  case standing =>
    intro j t ht
    rw [hfresh (List.mem_of_getElem? ht)]
    rfl
  case perm =>
    rw [List.filterMap_eq_nil_iff.2 fun t ht => by rw [hfresh ht]; rfl]
    exact .nil

theorem none_executing_before (ht : w.threads[i]? = some t) (before : t.isExecuting = false)
    (hnone : ∀ u ∈ w.threads.set i t', u.isExecuting = false) : ∀ u ∈ w.threads, u.isExecuting = false := by
  intro u hu
  obtain ⟨j, hj⟩ := List.mem_iff_getElem?.1 hu
  by_cases hij : i = j
  · subst hij
    rw [ht] at hj
    cases hj
    exact before
  · exact hnone u (List.mem_of_getElem? ((List.getElem?_set_ne hij).trans hj))

/-- A section that publishes nothing. -/
theorem quiet (h : w.Recorded log) (ht : w.threads[i]? = some t) {a : Action}
    (counted : Counted ⟨s', w.threads.set i t', w.completed ++ completedBy t a⟩)
    (done : completedBy t a = []) (silent : published w.safepoint i t a = [])
    (epoch : s'.epoch = w.safepoint.epoch) (roots : s'.threadRoots = w.safepoint.threadRoots)
    (requested : w.safepoint.requested = true → s'.requested = true)
    (before : t.isExecuting = false) (after : t'.isExecuting = false)
    (shot : t'.snapshot? w.safepoint.epoch = t.snapshot? w.safepoint.epoch) :
    Recorded ⟨s', w.threads.set i t', w.completed ++ completedBy t a⟩ (log ++ published w.safepoint i t a) := by
  rw [silent, List.append_nil]
  constructor
  case counted => exact counted
  case epochs =>
    intro x hx
    obtain ⟨hle, hreq⟩ := h.epochs x hx
    rw [epoch]
    exact ⟨hle, fun he => requested (hreq he)⟩
  case completed =>
    rw [done, List.append_nil, epoch]
    exact h.completed
  case collected =>
    intro hnone
    rw [epoch, roots]
    exact h.collected (none_executing_before ht before hnone)
  case taken =>
    intro u hu r roots' hs
    rw [epoch, roots]
    rcases List.mem_or_eq_of_mem_set hu with hu | rfl
    · exact h.taken u hu r roots' hs
    · simp [Thread.isExecuting, hs] at after
  case standing =>
    intro j u hu
    rw [epoch]
    by_cases hij : i = j
    · subst hij
      rw [List.getElem?_set_self (List.getElem?_eq_some_iff.1 ht).1] at hu
      cases hu
      rw [shot]
      exact h.standing i t ht
    · rw [List.getElem?_set_ne hij] at hu
      exact h.standing j u hu
  case perm =>
    rw [epoch, filterMap_set_eq _ shot ht]
    exact h.perm

/-- A section that publishes the roots of the thread. -/
theorem publish (h : w.Recorded log) (ht : w.threads[i]? = some t) {a : Action} {roots : List Address}
    (counted : Counted ⟨s', w.threads.set i t', w.completed ++ completedBy t a⟩)
    (done : completedBy t a = []) (hpub : published w.safepoint i t a = [⟨w.safepoint.epoch, i, roots⟩])
    (epoch : s'.epoch = w.safepoint.epoch) (collects : s'.threadRoots = w.safepoint.threadRoots ++ roots)
    (requested : s'.requested = true) (none : ∀ u ∈ w.threads, u.isExecuting = false) (after : t'.isExecuting = false)
    (before : t.snapshot? w.safepoint.epoch = .none) (shot : t'.snapshot? w.safepoint.epoch = some roots) :
    Recorded ⟨s', w.threads.set i t', w.completed ++ completedBy t a⟩ (log ++ published w.safepoint i t a) := by
  rw [hpub]
  constructor
  case counted => exact counted
  case epochs =>
    intro x hx
    rw [epoch]
    rcases List.mem_append.1 hx with hx | hx
    · exact ⟨(h.epochs x hx).1, fun _ => requested⟩
    · rw [List.mem_singleton.1 hx]
      exact ⟨Nat.le_refl _, fun _ => requested⟩
  case completed =>
    rw [done, List.append_nil, epoch, h.completed]
    refine List.map_congr_left fun e he => ?_
    rw [rootsOf_append, if_neg (Nat.ne_of_gt (List.mem_range.1 he)), List.append_nil]
  case collected =>
    intro _
    rw [epoch, collects, rootsOf_append, if_pos rfl, h.collected none]
  case taken =>
    intro u hu r roots' hs
    have hexec : u.isExecuting = true := by simp [Thread.isExecuting, hs]
    rcases List.mem_or_eq_of_mem_set hu with hu | rfl
    · rw [none u hu] at hexec
      cases hexec
    · rw [after] at hexec
      cases hexec
  case standing =>
    intro j u hu
    rw [epoch, snapshotsOf_append]
    by_cases hij : i = j
    · subst hij
      rw [List.getElem?_set_self (List.getElem?_eq_some_iff.1 ht).1] at hu
      cases hu
      rw [if_pos ⟨rfl, rfl⟩, h.standing i t ht, before, shot]
      rfl
    · rw [List.getElem?_set_ne hij] at hu
      rw [if_neg fun hc => hij hc.2, List.append_nil]
      exact h.standing j u hu
  case perm =>
    rw [epoch, rootsOf_append, if_pos rfl]
    refine (h.perm.append_right _).trans ?_
    have hset := (filterMap_set_perm _ shot before ht).flatten.symm
    rwa [List.flatten_append, List.flatten_singleton] at hset

/-- The operation gets the collected roots. -/
theorem begin (h : w.Recorded log) (ht : w.threads[i]? = some t) {r : Requester} (hs : t.state = .requesting r)
    (hs' : t'.state = .executing r w.safepoint.threadRoots)
    (counted : Counted
      ⟨{ w.safepoint with threadRoots := [] }, w.threads.set i t', w.completed ++ completedBy t .begin⟩) :
    Recorded ⟨{ w.safepoint with threadRoots := [] }, w.threads.set i t', w.completed ++ completedBy t .begin⟩
      (log ++ published w.safepoint i t .begin) := by
  have hothers {j : Nat} {u : Thread} (hj : j ≠ i) (hu : w.threads[j]? = some u) : u.isExecuting = false :=
    Thread.isExecuting_eq_false (h.counted.alone ht (by simp [Thread.isActive, hs]) hj hu)
  have hshot : t'.snapshot? w.safepoint.epoch = t.snapshot? w.safepoint.epoch := by simp [Thread.snapshot?, hs, hs']
  have hroots : w.safepoint.threadRoots = rootsOf log w.safepoint.epoch := by
    refine h.collected fun u hu => ?_
    obtain ⟨j, hj⟩ := List.mem_iff_getElem?.1 hu
    by_cases hji : j = i
    · subst hji
      rw [ht] at hj
      cases hj
      simp [Thread.isExecuting, hs]
    · exact hothers hji hj
  rw [show published w.safepoint i t .begin = [] from rfl, List.append_nil]
  rw [show completedBy t .begin = [] from rfl, List.append_nil] at counted ⊢
  constructor
  case counted => exact counted
  case epochs => exact h.epochs
  case completed => exact h.completed
  case collected =>
    -- the thread itself executes now
    intro hnone
    have := hnone t' (List.mem_set (List.getElem?_eq_some_iff.1 ht).1 _)
    simp [Thread.isExecuting, hs'] at this
  case taken =>
    intro u hu r' roots hu'
    rcases mem_set_cases hu with rfl | ⟨j, hj, hu⟩
    · rw [hs'] at hu'
      cases hu'
      exact ⟨rfl, hroots⟩
    · have := hothers hj hu
      simp [Thread.isExecuting, hu'] at this
  case standing =>
    intro j u hu
    by_cases hij : i = j
    · subst hij
      rw [List.getElem?_set_self (List.getElem?_eq_some_iff.1 ht).1] at hu
      cases hu
      exact (h.standing i t ht).trans (congrArg Option.toList hshot.symm)
    · rw [List.getElem?_set_ne hij] at hu
      exact h.standing j u hu
  case perm =>
    dsimp only
    rw [filterMap_set_eq _ hshot ht]
    exact h.perm

/-- The operation ends with its epoch, and the next epoch has no snapshots yet. -/
theorem finish (h : w.Recorded log) (ht : w.threads[i]? = some t) {r : Requester} {roots : List Address}
    (hs : t.state = .executing r roots) (hidle : t'.state = .idle)
    (counted : Counted ⟨w.safepoint.finish r, w.threads.set i t', w.completed ++ completedBy t .finish⟩) :
    Recorded ⟨w.safepoint.finish r, w.threads.set i t', w.completed ++ completedBy t .finish⟩
      (log ++ published w.safepoint i t .finish) := by
  obtain ⟨htaken, hroots⟩ := h.taken t (List.mem_of_getElem? ht) r roots hs
  have hnew : ∀ x ∈ log, x.epoch ≠ w.safepoint.epoch + 1 := fun x hx =>
    Nat.ne_of_lt (Nat.lt_succ_of_le (h.epochs x hx).1)
  have hnone := fun u hu => counted.snapshot?_eq_none rfl (t := u) hu
  rw [show published w.safepoint i t .finish = [] from rfl, List.append_nil]
  constructor
  case counted => exact counted
  case epochs => exact fun x hx => ⟨Nat.le_succ_of_le (h.epochs x hx).1, fun he => absurd he (hnew x hx)⟩
  case completed =>
    have hdone : completedBy t .finish = [roots] := by simp [completedBy, hs]
    rw [hdone, h.completed, hroots]
    exact (congrArg _ List.range_succ).trans (List.map_append ..) |>.symm
  case collected =>
    intro _
    exact htaken.trans (rootsOf_eq_nil hnew).symm
  case taken =>
    intro u hu r' roots' hu'
    rcases mem_set_cases hu with rfl | ⟨j, hj, hu⟩
    · rw [hidle] at hu'
      cases hu'
    · have := h.counted.alone ht (by simp [Thread.isActive, hs]) hj hu
      simp [Thread.isActive, hu'] at this
  case standing =>
    intro j u hu
    rw [hnone u (List.mem_of_getElem? hu)]
    exact snapshotsOf_eq_nil hnew j
  case perm =>
    rw [List.filterMap_eq_nil_iff.2 hnone, show (w.safepoint.finish r).epoch = w.safepoint.epoch + 1 from rfl,
      rootsOf_eq_nil hnew]
    exact .nil

/-- **A step publishes what it collects.**  Whoever stops was counted as running, so that no operation runs yet. -/
theorem step (h : w.Recorded log) (ht : w.threads[i]? = some t) {a : Action} {w' : World}
    (hstep : w.step i a = .ok (some w')) : w'.Recorded (log ++ published w.safepoint i t a) := by
  have hcounted := h.counted.step hstep
  obtain ⟨t₁, s', t', ht₁, hsec, rfl⟩ := step_eq_ok hstep
  rw [ht] at ht₁
  cases ht₁
  have hidle (hi : t.state = .idle) : t.isExecuting = false ∧ t.snapshot? w.safepoint.epoch = none := by
    simp [Thread.isExecuting, Thread.snapshot?, hi]
  cases hsec with
  | register idle free =>
    exact h.quiet ht hcounted rfl rfl rfl rfl id (hidle idle).1 (by simp [Thread.isExecuting, idle])
      (by simp [Thread.snapshot?, idle])
  | unregister idle mutator running registered =>
    exact h.quiet ht hcounted rfl rfl rfl rfl id (hidle idle).1 (by simp [Thread.isExecuting, idle])
      (by simp [Thread.snapshot?, idle])
  | pass idle free =>
    exact h.quiet ht hcounted rfl (by simp [published, free]) rfl rfl id (hidle idle).1 (hidle idle).1 rfl
  | park idle mutator pending running =>
    exact h.publish ht hcounted rfl (by simp [published, pending]) rfl rfl pending
      (h.counted.none_executing (.inl running)) rfl (hidle idle).2 (by simp [Thread.snapshot?])
  | @raise r idle mutator free running =>
    cases r with
    | external =>
      exact h.quiet ht hcounted rfl rfl rfl (List.append_nil _) (fun _ => rfl) (hidle idle).1 rfl
        (by simp [Thread.snapshot?, Requester.snapshot?, idle])
    | mutator roots =>
      exact h.publish ht hcounted rfl rfl rfl rfl rfl (h.counted.none_executing (.inr free)) rfl (hidle idle).2 rfl
  | @refuse r idle mutator pending running =>
    cases r with
    | external =>
      exact h.quiet ht hcounted rfl rfl rfl (List.append_nil _) id (hidle idle).1 rfl
        (by simp [Thread.snapshot?, Requester.snapshot?, idle])
    | mutator roots =>
      exact h.publish ht hcounted rfl rfl rfl rfl pending (h.counted.none_executing (.inl running)) rfl (hidle idle).2
        (by simp [Thread.snapshot?, Requester.snapshot?])
  | begin requesting stopped => exact h.begin ht requesting rfl hcounted
  | finish executing => exact h.finish ht executing rfl hcounted
  | repark parked ended pending running =>
    exact h.publish ht hcounted rfl (by simp [published, parked, pending]) rfl rfl pending
      (h.counted.none_executing (.inl running)) rfl (by simp [Thread.snapshot?, parked, Ne.symm ended])
      (by simp [Thread.snapshot?])
  | leave parked ended free =>
    exact h.quiet ht hcounted rfl (by simp [published, parked, free]) rfl rfl id
      (by simp [Thread.isExecuting, parked]) rfl (by simp [Thread.snapshot?, parked, Ne.symm ended])
  | giveUp refused ended =>
    exact h.quiet ht hcounted rfl (by simp [published, refused]) rfl rfl id (by simp [Thread.isExecuting, refused]) rfl
      (by simp [Thread.snapshot?, refused, Ne.symm ended])

/-- While an operation runs, every mutator has one snapshot of the epoch. -/
theorem gathered (h : w.Recorded log) (ht : w.threads[i]? = some t) {r : Requester} {roots : List Address}
    (hs : t.state = .executing r roots) : w.Gathered log i r roots := by
  have hexec : t.isExecuting = true := by simp [Thread.isExecuting, hs]
  have hstopped := h.counted.stoppedFor ht hexec
  have hslice := (h.taken t (List.mem_of_getElem? ht) r roots hs).2
  constructor
  case slice => exact hslice
  case perm => exact hslice ▸ h.perm
  case once =>
    intro j u hu
    refine ⟨h.standing j u hu, ?_⟩
    -- nobody runs, so that all the mutators that a thread is have stopped
    have hmem := List.mem_of_getElem? hu
    have hle := h.counted.running_le hmem
    have hge := h.counted.member u hmem w.safepoint.epoch
    rw [Thread.running, hstopped.running] at hle
    rw [Thread.length_snapshot?]
    omega
  case own =>
    intro u hu
    rw [ht] at hu
    cases hu
    simp [Thread.snapshot?, hs]
  case others =>
    intro j u hj hu hmut
    obtain ⟨hpark, -⟩ := hstopped.waits j u hj hu hmut
    unfold Thread.isParked at hpark
    split at hpark
    · next e shot hstate =>
      rw [← eq_of_beq hpark]
      exact ⟨shot, by simp [Thread.snapshot?, hstate], .inl hstate⟩
    · next e shot hstate =>
      rw [← eq_of_beq hpark]
      exact ⟨shot, by simp [Thread.snapshot?, hstate, Requester.snapshot?], .inr hstate⟩
    · cases hpark

end Recorded

theorem Reached.exists_traced {n : Nat} {w : World} (h : Reached n w) : ∃ log, Traced n w log := by
  induction h with
  | initial => exact ⟨[], .initial⟩
  | step _ run ih =>
    obtain ⟨log, hlog⟩ := ih
    obtain ⟨t, _, _, ht, -, -⟩ := step_eq_ok run
    exact ⟨_, hlog.step ht run⟩

theorem Traced.recorded {n : Nat} {w : World} {log : List Snapshot} (h : Traced n w log) : w.Recorded log := by
  induction h with
  | initial => exact .initial n
  | step _ member run ih => exact ih.step member run

/-- **Every stopped thread's roots are seen exactly once**, in any interleaving of any number of threads. -/
theorem Traced.delivered {n : Nat} {w : World} {log : List Snapshot} (h : Traced n w log) : w.Delivered log := by
  have hr := h.recorded
  constructor
  case executing => exact fun i t r roots ht hs => hr.gathered ht hs
  case completed => exact hr.completed
  case collected =>
    split
    · next hany =>
      obtain ⟨t, ht, hexec⟩ := List.any_eq_true.1 hany
      unfold Thread.isExecuting at hexec
      split at hexec
      · next r roots hs => exact (hr.taken t ht r roots hs).1
      · cases hexec
    · next hnone =>
      exact hr.collected fun t ht => Bool.eq_false_iff.2 fun hexec => hnone (List.any_eq_true.2 ⟨t, ht, hexec⟩)
  case epochs => exact hr.epochs
  case idle =>
    intro hfree
    rw [hr.collected (hr.counted.none_executing (.inr hfree))]
    refine rootsOf_eq_nil fun x hx he => ?_
    have := (hr.epochs x hx).2 he
    rw [hfree] at this
    cases this

/-- The second of two operations on end: one mutator parks again before it wakes, the other one was refused before. -/
theorem exists_delivered : ∃ w log t, Traced 3 w log ∧ w.completed = [[32, 8, 16, 24]] ∧ w.threads[2]? = some t ∧
    t.state = .executing (.mutator [40]) [40, 48, 56] ∧ w.Delivered log := by
  have hrun : ((World.initial 3).run [(0, .register), (1, .register), (2, .register), (2, .request (.mutator [32])),
      (0, .park [8, 16]), (1, .request (.mutator [24])), (2, .begin), (2, .finish), (2, .request (.mutator [40])),
      (0, .wake [48]), (1, .wake []), (1, .park [56]), (2, .begin)]).any (fun w =>
        w.completed == [[32, 8, 16, 24]] &&
          w.threads[2]?.any fun t => t.state == .executing (.mutator [40]) [40, 48, 56]) = true := by decide +kernel
  obtain ⟨w, hw, hsees⟩ := (Option.any_eq_true _ _).1 hrun
  obtain ⟨hdone, hthread⟩ := Bool.and_eq_true_iff.1 hsees
  obtain ⟨t, ht, hstate⟩ := (Option.any_eq_true _ _).1 hthread
  obtain ⟨log, hlog⟩ := ((Reached.initial (n := 3)).run hw).exists_traced
  exact ⟨w, log, t, hlog, eq_of_beq hdone, ht, eq_of_beq hstate, Traced.delivered hlog⟩

end World
end MarkSweep
