import MarkSweep.Proofs.Safepoint.Snapshots
/-!
# Waits and epochs

An epoch is the time up to the end of one operation.  `Reached.paced` says what a thread can rely on that had to wait for
one: that it waited for that operation and for no second one, and that none runs again before the thread has a part in
it.  A call is given by its sections, with sections of the other threads in between.
-/
namespace MarkSweep

namespace Thread

variable {t : Thread} {e : Nat}

theorem isActive_of_isParked (h : t.isParked e = true) : t.isActive = false := by
  unfold isParked at h
  unfold isActive
  split at h
  · next hs => rw [hs]
  · next hs => rw [hs]
  · cases h

/-- A thread waits for one epoch at a time. -/
theorem isParked_of_ne {e' : Nat} (h : t.isParked e = true) (hne : e ≠ e') : t.isParked e' = false := by
  unfold isParked at h
  unfold isParked
  split at h
  · next hs => exact eq_of_beq h ▸ beq_false_of_ne hne
  · next hs => exact eq_of_beq h ▸ beq_false_of_ne hne
  · cases h

end Thread

namespace World

variable {n i j : Nat} {w w' v : World} {t : Thread} {a : Action} {who : Nat → Prop} {roots : List Address}

/-! ## Runs -/

/-- Sections of the threads that `who` allows, in any interleaving. -/
inductive Runs (who : Nat → Prop) : World → World → Prop
  | refl (w : World) : Runs who w w
  | step {w w₁ w₂ : World} {j : Nat} {a : Action} (runs : Runs who w w₁) (allowed : who j)
      (run : w₁.step j a = .ok (some w₂)) : Runs who w w₂

/-- Thread number `j` has asked for an operation, which is not over. -/
def Operates (w : World) (j : Nat) : Prop := ∃ t, w.threads[j]? = some t ∧ t.isActive = true

/-- Thread number `j` ends its operation, which saw `roots`. -/
structure Ends (w : World) (j : Nat) (roots : List Address) (w' : World) : Prop where
  run : w.step j .finish = .ok (some w')
  saw : ∃ t r, w.threads[j]? = some t ∧ t.state = .executing r roots

theorem Runs.single (hwho : who i) (h : w.step i a = .ok (some w')) : Runs who w w' := .step (.refl w) hwho h

theorem Runs.trans (h : Runs who w w') (h' : Runs who w' v) : Runs who w v := by
  induction h' with
  | refl => exact h
  | step _ allowed run ih => exact .step ih allowed run

theorem Runs.mono {who' : Nat → Prop} (hwho : ∀ j, who j → who' j) (h : Runs who w w') : Runs who' w w' := by
  induction h with
  | refl => exact .refl _
  | step _ allowed run ih => exact .step ih (hwho _ allowed) run

theorem Runs.any (h : Runs who w w') : Runs (fun _ => True) w w' := h.mono fun _ _ => trivial

theorem Runs.counted (h : Runs who w w') (hc : w.Counted) : w'.Counted := by
  induction h with
  | refl => exact hc
  | step _ _ run ih => exact ih.step run

/-- A run of all threads up to the first section of one of them. -/
theorem Runs.first (i : Nat) (h : Runs who w w') : Runs (· ≠ i) w w' ∨
    ∃ w₁ a w₂, Runs (· ≠ i) w w₁ ∧ w₁.step i a = .ok (some w₂) ∧ Runs who w₂ w' := by
  induction h with
  | refl => exact .inl (.refl _)
  | @step w₁ w₂ j a _ allowed run ih =>
    rcases ih with hothers | ⟨u, b, u', hothers, hfirst, hrest⟩
    · by_cases hij : j = i
      · subst hij
        exact .inr ⟨w₁, a, w₂, hothers, run, .refl _⟩
      · exact .inl (.step hothers hij run)
    · exact .inr ⟨u, b, u', hothers, hfirst, .step hrest allowed run⟩

/-! ## One section -/

theorem step_thread_of_ne (h : w.step j a = .ok (some w')) (hne : j ≠ i) : w'.threads[i]? = w.threads[i]? := by
  obtain ⟨t, s', t', -, -, rfl⟩ := step_eq_ok h
  exact List.getElem?_set_ne hne

theorem Ends.epoch (h : w.Ends j roots w') :
    w'.safepoint.epoch = w.safepoint.epoch + 1 ∧ w'.completed = w.completed ++ [roots] := by
  obtain ⟨t, r, ht, hs⟩ := h.saw
  obtain ⟨t₁, s', t', ht₁, hsec, rfl⟩ := step_eq_ok h.run
  rw [ht] at ht₁
  cases ht₁
  cases hsec with
  | finish executing => exact ⟨rfl, by simp [completedBy, hs]⟩

/-- **The epoch changes with the end of an operation**, and with nothing else. -/
theorem step_epoch (h : w.step j a = .ok (some w')) :
    (w'.safepoint.epoch = w.safepoint.epoch ∧ w'.completed = w.completed ∧ (w.Operates j → w'.Operates j)) ∨
      ∃ roots, w.Ends j roots w' := by
  have hstep := h
  obtain ⟨t, s', t', ht, hsec, rfl⟩ := step_eq_ok h
  have hlt := (List.getElem?_eq_some_iff.1 ht).1
  have hkeep (hact : t.isActive = true → t'.isActive = true) :
      w.Operates j → Operates ⟨s', w.threads.set j t', w.completed ++ completedBy t a⟩ j := by
    rintro ⟨u, hu, hu'⟩
    rw [ht] at hu
    cases hu
    exact ⟨t', List.getElem?_set_self hlt, hact hu'⟩
  have hidle (hact : t.isActive = false) : t.isActive = true → t'.isActive = true := fun h => by simp [hact] at h
  cases hsec with
  | finish executing => exact .inr ⟨_, hstep, t, _, ht, executing⟩
  | begin requesting stopped => exact .inl ⟨rfl, List.append_nil _, hkeep fun _ => rfl⟩
  | repark parked ended pending running =>
    exact .inl ⟨rfl, List.append_nil _, hkeep (hidle (by simp [Thread.isActive, parked]))⟩
  | leave parked ended free =>
    exact .inl ⟨rfl, List.append_nil _, hkeep (hidle (by simp [Thread.isActive, parked]))⟩
  | giveUp refused ended =>
    exact .inl ⟨rfl, List.append_nil _, hkeep (hidle (by simp [Thread.isActive, refused]))⟩
  | _ => exact .inl ⟨rfl, List.append_nil _, hkeep (hidle (Thread.of_idle ‹_›).1)⟩

theorem Reached.epoch_eq (h : Reached n w) : w.safepoint.epoch = w.completed.length := by
  induction h with
  | initial => rfl
  | step _ run ih =>
    rcases step_epoch run with ⟨hepoch, hdone, -⟩ | ⟨roots, hends⟩
    · rw [hepoch, hdone, ih]
    · rw [hends.epoch.1, hends.epoch.2, ih, List.length_append, List.length_singleton]

/-! ## The pending operation -/

theorem Runs.thread_of_ne (h : Runs (· ≠ i) w w') : w'.threads[i]? = w.threads[i]? := by
  induction h with
  | refl => rfl
  | step _ allowed run ih => exact (step_thread_of_ne run allowed).trans ih

theorem Runs.length_threads (h : Runs who w w') : w'.threads.length = w.threads.length := by
  induction h with
  | refl => rfl
  | step _ _ run ih =>
    obtain ⟨t, s', t', -, -, rfl⟩ := step_eq_ok run
    exact List.length_set.trans ih

theorem Counted.exists_operates (h : w.Counted) (hreq : w.safepoint.requested = true) : ∃ j, w.Operates j := by
  have hsum := h.active
  rw [hreq] at hsum
  by_contra hnone
  rw [List.sum_eq_zero fun k hk => ?_] at hsum
  · cases hsum
  · obtain ⟨t, ht, rfl⟩ := List.mem_map.1 hk
    obtain ⟨j, hj⟩ := List.mem_iff_getElem?.1 ht
    rw [Bool.eq_false_iff.2 fun hact => hnone ⟨j, t, hj, hact⟩, Bool.toNat_false]

/-- **The pending operation stays pending until its own thread ends it.** -/
theorem Counted.operates_until (hc : w.Counted) (hop : w.Operates j) (h : Runs who w w') :
    (w'.safepoint.epoch = w.safepoint.epoch ∧ w'.completed = w.completed ∧ w'.Operates j) ∨
      ∃ u roots u', who j ∧ Runs who w u ∧ u.safepoint.epoch = w.safepoint.epoch ∧ u.completed = w.completed ∧
        u.Ends j roots u' ∧ Runs who u' w' := by
  induction h with
  | refl => exact .inl ⟨rfl, rfl, hop⟩
  | @step w₁ w₂ k a runs allowed run ih =>
    rcases ih with ⟨hepoch, hdone, t, ht, hact⟩ | ⟨u, roots, u', hj, hbefore, hepoch, hdone, hends, hafter⟩
    · rcases step_epoch run with ⟨hepoch', hdone', hkeep⟩ | ⟨roots, hends⟩
      · refine .inl ⟨hepoch'.trans hepoch, hdone'.trans hdone, ?_⟩
        by_cases hk : k = j
        · subst hk
          exact hkeep ⟨t, ht, hact⟩
        · exact ⟨t, (step_thread_of_ne run hk).trans ht, hact⟩
      · -- no other thread has an operation to end
        obtain ⟨u, r, hu, hs⟩ := hends.saw
        have hk : k = j := by
          by_contra hk
          have := (runs.counted hc).alone ht hact hk hu
          simp [Thread.isActive, hs] at this
        subst hk
        exact .inr ⟨w₁, roots, w₂, allowed, runs, hepoch, hdone, hends, .refl _⟩
    · exact .inr ⟨u, roots, u', hj, hbefore, hepoch, hdone, hends, .step hafter allowed run⟩

/-! ## A wait -/

/-- Whoever waited as a mutator for an epoch that is over counts as running before it wakes. -/
theorem Counted.running_of_isParked (h : w.Counted) (ht : t ∈ w.threads) {e : Nat} (hpark : t.isParked e = true)
    (hover : e ≠ w.safepoint.epoch) : 0 < w.safepoint.running := by
  have hmember := h.member t ht e
  have hle := h.running_le ht
  rw [Thread.running, Thread.isParked_of_ne hpark hover, Thread.isOwn_eq_false (Thread.isActive_of_isParked hpark)] at hle
  rw [hpark, Bool.toNat_true] at hmember
  simp only [Bool.toNat_false] at hle
  omega

/-- **While a mutator waits, one operation ends at most.** -/
theorem Counted.waits_once (hc : w.Counted) (ht : w.threads[i]? = some t)
    (hpark : t.isParked w.safepoint.epoch = true) (h : Runs (· ≠ i) w w') :
    (w'.safepoint.epoch = w.safepoint.epoch ∧ w'.completed = w.completed) ∨
      (w'.safepoint.epoch = w.safepoint.epoch + 1 ∧ (∃ roots, w'.completed = w.completed ++ [roots]) ∧
        ∀ u ∈ w'.threads, u.isExecuting = false) := by
  have hnone {v : World} (hv : Runs (· ≠ i) w v) (hover : v.safepoint.epoch = w.safepoint.epoch + 1) :
      ∀ u ∈ v.threads, u.isExecuting = false := by
    refine (hv.counted hc).none_executing (.inl ((hv.counted hc).running_of_isParked ?_ hpark (by omega)))
    exact List.mem_of_getElem? (hv.thread_of_ne.trans ht)
  induction h with
  | refl => exact .inl ⟨rfl, rfl⟩
  | @step w₁ w₂ k a runs allowed run ih =>
    have hruns : Runs (· ≠ i) w w₂ := .step runs allowed run
    rcases ih with ⟨hepoch, hdone⟩ | ⟨hepoch, hdone, hidle⟩
    · rcases step_epoch run with ⟨hepoch', hdone', -⟩ | ⟨roots, hends⟩
      · exact .inl ⟨hepoch'.trans hepoch, hdone'.trans hdone⟩
      · have hepoch₂ : w₂.safepoint.epoch = w.safepoint.epoch + 1 := by rw [hends.epoch.1, hepoch]
        exact .inr ⟨hepoch₂, ⟨roots, by rw [hends.epoch.2, hdone]⟩, hnone hruns hepoch₂⟩
    · rcases step_epoch run with ⟨hepoch', hdone', -⟩ | ⟨roots, hends⟩
      · exact .inr ⟨hepoch'.trans hepoch, hdone'.symm ▸ hdone, hnone hruns (hepoch'.trans hepoch)⟩
      · obtain ⟨u, r, hu, hs⟩ := hends.saw
        have := hidle u (List.mem_of_getElem? hu)
        simp [Thread.isExecuting, hs] at this

/-! ## Calls -/

/-- The operation that is pending in `w` is over in `w'`: it is the first one to end, and the thread that asked for it
ends it. -/
def Completes (w w' : World) : Prop :=
  ∃ j u roots u', w.Operates j ∧ Runs (fun _ => True) w u ∧ u.safepoint.epoch = w.safepoint.epoch ∧
    u.Ends j roots u' ∧ Runs (fun _ => True) u' w'

/-- A call of thread number `i` that asks for an operation, from the section that takes the lock to the one with which
it returns; the result is what the operation saw, if it is run. -/
inductive Executes (i : Nat) (r : Requester) : World → Option (List Address) → World → Prop
  | ran {w w₁ w₂ w₃ w₄ w' : World} {roots : List Address} (request : w.step i (.request r) = .ok (some w₁))
      (stops : Runs (· ≠ i) w₁ w₂) (begin : w₂.step i .begin = .ok (some w₃)) (others : Runs (· ≠ i) w₃ w₄)
      (ends : w₄.Ends i roots w') : Executes i r w (some roots) w'
  | refused {w w₁ w₂ w' : World} {roots : List Address} (request : w.step i (.request r) = .ok (some w₁))
      (others : Runs (· ≠ i) w₁ w₂) (wake : w₂.step i (.wake roots) = .ok (some w')) : Executes i r w none w'

/-- One wait of thread number `i` as a mutator, from the section that stops it to the one with which it goes on. -/
inductive Waits (i : Nat) : World → World → Prop
  | intro {w w₁ w₂ w' : World} {t : Thread} {a b : Action} (stop : w.step i a = .ok (some w₁))
      (thread : w₁.threads[i]? = some t) (stopped : t.isParked w₁.safepoint.epoch = true)
      (others : Runs (· ≠ i) w₁ w₂) (wake : w₂.step i b = .ok (some w')) : Waits i w w'

/-- Thread number `i` calls `park` and has waited so many times since. -/
inductive Parks (i : Nat) : World → Nat → World → Prop
  | call {w w' : World} {roots : List Address} (run : w.step i (.park roots) = .ok (some w')) : Parks i w 0 w'
  | wait {w w₁ w₂ w' : World} {count : Nat} {roots : List Address} (parks : Parks i w count w₁)
      (others : Runs (· ≠ i) w₁ w₂) (wake : w₂.step i (.wake roots) = .ok (some w')) : Parks i w (count + 1) w'

/-- Between `w`, in which thread number `i` waits, and `v`, in which thread number `j` runs the operation of a later
epoch, the thread woke, and it has a part in the operation: it waits again, is no mutator any more, or is the requester. -/
structure Rejoins (i j : Nat) (w v : World) : Prop where
  woke : ∃ w₁ roots w₂, Runs (· ≠ i) w w₁ ∧ w₁.step i (.wake roots) = .ok (some w₂) ∧ Runs (fun _ => True) w₂ v
  part : ∃ t, v.threads[i]? = some t ∧
    (t.isParked v.safepoint.epoch = true ∨ t.registrations = 0 ∨ j = i ∧ t.isOwn = true)

theorem step_request {r : Requester} (h : w.step i (.request r) = .ok (some w')) :
    ∃ t, w'.threads[i]? = some t ∧ w'.safepoint.epoch = w.safepoint.epoch ∧ w'.completed = w.completed ∧
      (w.safepoint.requested = false ∧ t.state = .requesting r ∨
        w.safepoint.requested = true ∧ t.state = .refused w.safepoint.epoch r) := by
  obtain ⟨t, s', t', ht, hsec, rfl⟩ := step_eq_ok h
  refine ⟨t', List.getElem?_set_self (List.getElem?_eq_some_iff.1 ht).1, ?_⟩
  cases hsec with
  | raise idle mutator free running => exact ⟨rfl, List.append_nil _, .inl ⟨free, rfl⟩⟩
  | refuse idle mutator pending running => exact ⟨rfl, List.append_nil _, .inr ⟨pending, rfl⟩⟩

theorem step_begin (h : w.step i .begin = .ok (some w')) : ∃ t r, w.threads[i]? = some t ∧ t.state = .requesting r ∧
    w'.Operates i ∧ w'.safepoint.epoch = w.safepoint.epoch ∧ w'.completed = w.completed := by
  obtain ⟨t, s', t', ht, hsec, rfl⟩ := step_eq_ok h
  cases hsec with
  | begin requesting stopped =>
    exact ⟨t, _, ht, requesting, ⟨_, List.getElem?_set_self (List.getElem?_eq_some_iff.1 ht).1, rfl⟩, rfl,
      List.append_nil _⟩

/-- What goes on after an epoch: a thread that waited for it, and it parks again or comes to rest. -/
theorem step_wake (h : w.step i (.wake roots) = .ok (some w')) :
    ∃ t t' e, w.threads[i]? = some t ∧ w'.threads[i]? = some t' ∧ e ≠ w.safepoint.epoch ∧
      w'.safepoint.epoch = w.safepoint.epoch ∧ w'.completed = w.completed ∧
      ((∃ old, t.state = .parked e old) ∧
          (t'.state = .idle ∧ w'.safepoint.requested = false ∨ t'.state = .parked w'.safepoint.epoch roots) ∨
        (∃ r, t.state = .refused e r) ∧ t'.state = .idle) := by
  obtain ⟨t, s', t', ht, hsec, rfl⟩ := step_eq_ok h
  have ht' := List.getElem?_set_self (a := t') (List.getElem?_eq_some_iff.1 ht).1
  cases hsec with
  | repark parked ended pending running =>
    exact ⟨t, _, _, ht, ht', ended.symm, rfl, List.append_nil _, .inl ⟨⟨_, parked⟩, .inr rfl⟩⟩
  | leave parked ended free =>
    exact ⟨t, _, _, ht, ht', ended.symm, rfl, List.append_nil _, .inl ⟨⟨_, parked⟩, .inl ⟨rfl, free⟩⟩⟩
  | giveUp refused ended =>
    exact ⟨t, _, _, ht, ht', ended.symm, rfl, List.append_nil _, .inr ⟨⟨_, refused⟩, rfl⟩⟩

theorem step_of_isParked {e : Nat} (h : w.step i a = .ok (some w')) (ht : w.threads[i]? = some t)
    (hpark : t.isParked e = true) : ∃ roots, a = .wake roots := by
  obtain ⟨t₁, s', t', ht₁, hsec, -⟩ := step_eq_ok h
  rw [ht] at ht₁
  cases ht₁
  have hidle (hi : t.state = .idle) : False := by simp [(Thread.of_idle hi).2.1] at hpark
  cases hsec with
  | begin requesting stopped => simp [Thread.isParked, requesting] at hpark
  | finish executing => simp [Thread.isParked, executing] at hpark
  | repark _ _ _ _ => exact ⟨_, rfl⟩
  | leave _ _ _ => exact ⟨_, rfl⟩
  | giveUp _ _ => exact ⟨_, rfl⟩
  | _ => exact (hidle ‹_›).elim

theorem step_wake_none_executing (h : w.step i (.wake roots) = .ok (some w'))
    (hnone : ∀ u ∈ w.threads, u.isExecuting = false) : ∀ u ∈ w'.threads, u.isExecuting = false := by
  intro u hu
  obtain ⟨_, t', _, -, ht', -, -, -, hwoke⟩ := step_wake h
  obtain ⟨k, hk⟩ := List.mem_iff_getElem?.1 hu
  by_cases hki : k = i
  · subst hki
    rw [hk] at ht'
    cases ht'
    rcases hwoke with ⟨-, ⟨hs, -⟩ | hs⟩ | ⟨-, hs⟩ <;> simp [Thread.isExecuting, hs]
  · exact hnone u (List.mem_of_getElem? ((step_thread_of_ne h (Ne.symm hki)).symm.trans hk))

/-- A mutator stops for the operation that is pending, and ran until then. -/
theorem step_stops (h : w.step i a = .ok (some w')) (ht : w'.threads[i]? = some t)
    (hpark : t.isParked w'.safepoint.epoch = true) : w.safepoint.requested = true ∧ 0 < w.safepoint.running ∧
      w'.safepoint.epoch = w.safepoint.epoch ∧ w'.completed = w.completed := by
  obtain ⟨t₀, s', t', ht₀, hsec, rfl⟩ := step_eq_ok h
  rw [List.getElem?_set_self (List.getElem?_eq_some_iff.1 ht₀).1] at ht
  cases ht
  have hidle (hi : t.state = .idle) : False := by simp [(Thread.of_idle hi).2.1] at hpark
  cases hsec with
  | park idle mutator pending running => exact ⟨pending, running, rfl, List.append_nil _⟩
  | repark parked ended pending running => exact ⟨pending, running, rfl, List.append_nil _⟩
  | @refuse r idle mutator pending running =>
    cases r with
    | external => simp [Thread.isParked] at hpark
    | mutator roots => exact ⟨pending, running, rfl, List.append_nil _⟩
  | raise idle mutator free running => simp [Thread.isParked] at hpark
  | begin requesting stopped => simp [Thread.isParked] at hpark
  | finish executing => exact (hidle rfl).elim
  | leave parked ended free => exact (hidle rfl).elim
  | giveUp refused ended => exact (hidle rfl).elim
  | _ => exact (hidle ‹_›).elim

/-! ## What a call spans -/

namespace Counted

theorem completes (hc : w.Counted) (hreq : w.safepoint.requested = true) (h : Runs (fun _ => True) w w')
    (hover : w'.safepoint.epoch ≠ w.safepoint.epoch) : w.Completes w' := by
  obtain ⟨j, hop⟩ := hc.exists_operates hreq
  rcases hc.operates_until hop h with ⟨hepoch, -⟩ | ⟨u, roots, u', -, hbefore, hepoch, -, hends, hafter⟩
  · exact absurd hepoch hover
  · exact ⟨j, u, roots, u', hop, hbefore, hepoch, hends, hafter⟩

/-- The requester's operation is the only one to end in its call. -/
theorem executes_ran {r : Requester} (hc : w.Counted) (h : Executes i r w (some roots) w') :
    w.safepoint.requested = false ∧ w'.completed = w.completed ++ [roots] := by
  cases h with
  | @ran w₁ w₂ w₃ w₄ _ _ request stops begin others ends =>
    obtain ⟨t, ht, hepoch, hdone, hcases⟩ := step_request request
    obtain ⟨t₂, r', ht₂, hs₂, hop₃, hepoch₃, hdone₃⟩ := step_begin begin
    have hc₁ := hc.step request
    have hc₃ := (stops.counted hc₁).step begin
    rw [stops.thread_of_ne, ht] at ht₂
    cases ht₂
    rcases hcases with ⟨hfree, hs⟩ | ⟨-, hs⟩
    · have hop₁ : w₁.Operates i := ⟨t, ht, by simp [Thread.isActive, hs]⟩
      have hbefore : w₂.completed = w₁.completed := by
        rcases hc₁.operates_until hop₁ stops with ⟨-, hsame, -⟩ | ⟨-, -, -, hne, -⟩
        · exact hsame
        · exact absurd rfl hne
      have hafter : w₄.completed = w₃.completed := by
        rcases hc₃.operates_until hop₃ others with ⟨-, hsame, -⟩ | ⟨-, -, -, hne, -⟩
        · exact hsame
        · exact absurd rfl hne
      exact ⟨hfree, by rw [ends.epoch.2, hafter, hdone₃, hbefore, hdone]⟩
    · rw [hs] at hs₂
      cases hs₂

/-- A refused requester returns when the operation is over that was pending. -/
theorem executes_refused {r : Requester} (hc : w.Counted) (h : Executes i r w none w') :
    w.safepoint.requested = true ∧ w.Completes w' := by
  cases h with
  | @refused w₁ w₂ _ _ request others wake =>
    obtain ⟨t, ht, hepoch, -, hcases⟩ := step_request request
    obtain ⟨t₂, _, e, ht₂, -, hover, hepoch', -, hwoke⟩ := step_wake wake
    rw [others.thread_of_ne, ht] at ht₂
    cases ht₂
    rcases hwoke with ⟨⟨old, hparked⟩, -⟩ | ⟨⟨r', hrefused⟩, -⟩
    · rcases hcases with ⟨-, hs⟩ | ⟨-, hs⟩ <;> rw [hs] at hparked <;> cases hparked
    · rcases hcases with ⟨-, hs⟩ | ⟨hreq, hs⟩ <;> rw [hs] at hrefused <;> cases hrefused
      refine ⟨hreq, hc.completes hreq ?_ (hepoch' ▸ hover.symm)⟩
      exact ((Runs.single trivial request).trans others.any).trans (.single trivial wake)

/-- Whoever waits as a mutator goes on when one operation is over, and before another one runs. -/
theorem wake_once (hc : w.Counted) (ht : w.threads[i]? = some t) (hpark : t.isParked w.safepoint.epoch = true)
    (others : Runs (· ≠ i) w w') (wake : w'.step i a = .ok (some v)) :
    w'.safepoint.epoch = w.safepoint.epoch + 1 ∧ (∃ roots, w'.completed = w.completed ++ [roots]) ∧
      ∀ u ∈ w'.threads, u.isExecuting = false := by
  rcases hc.waits_once ht hpark others with ⟨hepoch, -⟩ | hover
  · have hnone := step_eq_none (others.thread_of_ne.trans ht) (stepThread_of_isParked (hepoch ▸ hpark) a)
    rw [hnone] at wake
    cases wake
  · exact hover

/-- A mutator's wait goes over one operation, which runs neither before it nor after it. -/
theorem waits_one (hc : w.Counted) (h : Waits i w w') : w.Completes w' ∧
    (∃ roots, w'.completed = w.completed ++ [roots]) ∧
    (∀ u ∈ w.threads, u.isExecuting = false) ∧ ∀ u ∈ w'.threads, u.isExecuting = false := by
  cases h with
  | @intro w₁ w₂ _ t a b stop thread stopped others wake =>
    obtain ⟨hreq, hrunning, hepoch, hdone⟩ := step_stops stop thread stopped
    obtain ⟨hepoch₂, ⟨seen, hdone₂⟩, hidle⟩ := (hc.step stop).wake_once thread stopped others wake
    obtain ⟨roots, rfl⟩ := step_of_isParked wake (others.thread_of_ne.trans thread) stopped
    obtain ⟨-, -, -, -, -, -, hepoch', hdone', -⟩ := step_wake wake
    refine ⟨hc.completes hreq ?_ (by omega), ⟨seen, ?_⟩, hc.none_executing (.inl hrunning), ?_⟩
    · exact ((Runs.single trivial stop).trans others.any).trans (.single trivial wake)
    · rw [hdone', hdone₂, hdone]
    · exact step_wake_none_executing wake hidle

/-- After so many waits in `park` so many operations are over; a thread leaves it only where none is requested. -/
theorem parks_count (hc : w.Counted) {count : Nat} (h : Parks i w count w') :
    w'.Counted ∧ w'.completed.length = w.completed.length + count ∧ ∃ t, w'.threads[i]? = some t ∧
      (t.state = .idle ∧ w'.safepoint.requested = false ∨ ∃ roots, t.state = .parked w'.safepoint.epoch roots) := by
  induction h with
  | call run =>
    refine ⟨hc.step run, ?_⟩
    obtain ⟨t, s', t', ht, hsec, rfl⟩ := step_eq_ok run
    have ht' := List.getElem?_set_self (a := t') (List.getElem?_eq_some_iff.1 ht).1
    cases hsec with
    | pass idle free => exact ⟨congrArg _ (List.append_nil _), t, ht', .inl ⟨idle, free⟩⟩
    | park idle mutator pending running => exact ⟨congrArg _ (List.append_nil _), _, ht', .inr ⟨_, rfl⟩⟩
  | @wait w₁ w₂ w' count roots parks others wake ih =>
    obtain ⟨hc₁, hdone₁, t, ht, hstate⟩ := ih
    obtain ⟨t₂, t', e, ht₂, ht', -, hepoch', hdone', hwoke⟩ := step_wake wake
    rw [others.thread_of_ne, ht] at ht₂
    cases ht₂
    rcases hstate with ⟨hidle, -⟩ | ⟨old, hparked⟩
    · rcases hwoke with ⟨⟨_, hs⟩, -⟩ | ⟨⟨_, hs⟩, -⟩ <;> rw [hidle] at hs <;> cases hs
    obtain ⟨-, ⟨seen, hdone⟩, -⟩ := hc₁.wake_once ht (by simp [Thread.isParked, hparked]) others wake
    refine ⟨(others.counted hc₁).step wake, ?_, t', ht', ?_⟩
    · rw [hdone', hdone, List.length_append, hdone₁, List.length_singleton, Nat.add_assoc]
    · rcases hwoke with ⟨-, hleft | hagain⟩ | ⟨⟨_, hs⟩, -⟩
      · exact .inl hleft
      · exact .inr ⟨_, hagain⟩
      · rw [hparked] at hs
        cases hs

/-- No operation of a later epoch runs before a waiting mutator woke and has a part in it. -/
theorem rejoins (hc : w.Counted) (ht : w.threads[i]? = some t) (hpark : t.isParked w.safepoint.epoch = true)
    (h : Runs (fun _ => True) w v) {u : Thread} (hu : v.threads[j]? = some u) (hexec : u.isExecuting = true)
    (hlater : v.safepoint.epoch ≠ w.safepoint.epoch) : w.Rejoins i j v := by
  have hv := h.counted hc
  constructor
  case woke =>
    rcases h.first i with hothers | ⟨w₁, a, w₂, hothers, hwake, hrest⟩
    · rcases hc.waits_once ht hpark hothers with ⟨hepoch, -⟩ | ⟨-, -, hnone⟩
      · exact absurd hepoch hlater
      · rw [hnone u (List.mem_of_getElem? hu)] at hexec
        cases hexec
    · obtain ⟨roots, rfl⟩ := step_of_isParked hwake (hothers.thread_of_ne.trans ht) hpark
      exact ⟨w₁, roots, w₂, hothers, hwake, hrest⟩
  case part =>
    have hlt : i < v.threads.length := by
      rw [h.length_threads]
      exact (List.getElem?_eq_some_iff.1 ht).1
    refine ⟨v.threads[i], List.getElem?_eq_getElem hlt, ?_⟩
    have hi := List.getElem?_eq_getElem hlt
    generalize v.threads[i] = t' at hi ⊢
    by_cases hmut : t'.registrations = 0
    · exact .inr (.inl hmut)
    by_cases hji : i = j
    · subst hji
      rw [hi] at hu
      cases hu
      -- an executing thread that is a mutator, but not of the operation, would count as running
      have hle := hv.running_le (List.mem_of_getElem? hi)
      rw [Thread.running, hv.stopped _ (List.mem_of_getElem? hi) hexec] at hle
      have hpark' : u.isParked v.safepoint.epoch = false := by
        refine Bool.eq_false_iff.2 fun hp => ?_
        rw [Thread.isExecuting_eq_false (Thread.isActive_of_isParked hp)] at hexec
        cases hexec
      rw [hpark'] at hle
      refine .inr (.inr ⟨rfl, ?_⟩)
      refine Bool.eq_true_of_not_eq_false fun hown => hmut ?_
      simpa [hown] using hle
    · exact .inl ((hv.stoppedFor hu hexec).waits i t' hji hi (Nat.pos_of_ne_zero hmut)).1

end Counted

/-- **Operations and the threads that wait for them**, from a world on. -/
structure Paced (w : World) : Prop where
  epoch : w.safepoint.epoch = w.completed.length
  /-- A request is refused where an operation is pending when the call takes the lock, and nowhere else. -/
  execute : ∀ i r result w', Executes i r w result w' → (result = none ↔ w.safepoint.requested = true)
  ran : ∀ i r roots w', Executes i r w (some roots) w' → w'.completed = w.completed ++ [roots]
  refused : ∀ i r w', Executes i r w none w' → w.Completes w'
  /-- The whole execution of exactly one operation falls into a mutator's wait, that of the pending one. -/
  wait : ∀ i w', Waits i w w' → w.Completes w' ∧ (∃ roots, w'.completed = w.completed ++ [roots]) ∧
    (∀ u ∈ w.threads, u.isExecuting = false) ∧ ∀ u ∈ w'.threads, u.isExecuting = false
  next : ∀ i j t u v, w.threads[i]? = some t → t.isParked w.safepoint.epoch = true → Runs (fun _ => True) w v →
    v.threads[j]? = some u → u.isExecuting = true → v.safepoint.epoch ≠ w.safepoint.epoch → w.Rejoins i j v
  park : ∀ i count t w', Parks i w count w' → w'.threads[i]? = some t → t.state = .idle →
    w'.safepoint.requested = false ∧ w'.completed.length = w.completed.length + count
  register : ∀ i w', w.step i .register = .ok (some w') →
    w.safepoint.requested = false ∧ w'.safepoint.requested = false

/-- **Every wait goes over one operation**, for any number of threads, in any interleaving. -/
theorem Reached.paced (h : Reached n w) : w.Paced := by
  have hc := h.counted
  constructor
  case epoch => exact h.epoch_eq
  case execute =>
    intro i r result w' hcall
    cases result with
    | none => simp [(hc.executes_refused hcall).1]
    | some roots => simp [(hc.executes_ran hcall).1]
  case ran => exact fun _ _ _ _ hcall => (hc.executes_ran hcall).2
  case refused => exact fun _ _ _ hcall => (hc.executes_refused hcall).2
  case wait => exact fun _ _ hwait => hc.waits_one hwait
  case next => exact fun _ _ _ _ _ ht hpark hruns hu hexec hlater => hc.rejoins ht hpark hruns hu hexec hlater
  case park =>
    intro i count t w' hparks ht hidle
    obtain ⟨-, hdone, u, hu, hstate⟩ := hc.parks_count hparks
    rw [ht] at hu
    cases hu
    rcases hstate with ⟨-, hfree⟩ | ⟨roots, hparked⟩
    · exact ⟨hfree, hdone⟩
    · rw [hidle] at hparked
      cases hparked
  case register =>
    intro i w' hstep
    obtain ⟨t, s', t', -, hsec, rfl⟩ := step_eq_ok hstep
    cases hsec with
    | register idle free => exact ⟨free, free⟩

/-- A refused mutator goes on while the next operation is requested already, and the one it waited for is over. -/
theorem exists_paced : ∃ w w', Reached 3 w ∧ Executes 1 (.mutator [24]) w none w' ∧ w'.safepoint.requested = true ∧
    w.Paced ∧ w.Completes w' := by
  obtain ⟨w, hw, hrest⟩ : ∃ w, (World.initial 3).run [(0, .register), (1, .register), (2, .request .external)] = some w ∧
      (w.run [(1, .request (.mutator [24])), (0, .park [8, 16]), (2, .begin), (2, .finish), (2, .request .external),
        (1, .wake [])]).any (·.safepoint.requested) = true := by
    refine ⟨_, rfl, ?_⟩
    decide +kernel
  obtain ⟨w', hw', hreq⟩ := (Option.any_eq_true _ _).1 hrest
  have hreached := (Reached.initial (n := 3)).run hw
  obtain ⟨w₁, hrequest, hw'⟩ := run_cons hw'
  obtain ⟨w₂, hpark, hw'⟩ := run_cons hw'
  obtain ⟨w₃, hbegin, hw'⟩ := run_cons hw'
  obtain ⟨w₄, hfinish, hw'⟩ := run_cons hw'
  obtain ⟨w₅, hagain, hw'⟩ := run_cons hw'
  obtain ⟨_, hwake, hw'⟩ := run_cons hw'
  cases hw'
  have hothers : Runs (· ≠ 1) w₁ w₅ :=
    ((((Runs.refl w₁).step (by decide) hpark).step (by decide) hbegin).step (by decide) hfinish).step (by decide) hagain
  have hcall : Executes 1 (.mutator [24]) w none w' := .refused hrequest hothers hwake
  have hpaced := Reached.paced hreached
  exact ⟨w, w', hreached, hcall, hreq, hpaced, hpaced.refused _ _ _ hcall⟩

end World
end MarkSweep
