import MarkSweep.Proofs.Heap.Allocation
/-!
# Buffers and mutators

What external threads do with their buffers, how a mutator allocates, and what its start and its end leave.  A mutator
tries its buffer and then the free list (`allocateFor_first`), and after a cycle the free list again (`allocateFor_spec`).
-/
namespace MarkSweep
namespace Heap

variable {h : Heap} {ts : List Tile} {id : TlabId}

/-! ## Grants of a buffer -/

theorem installs_of_refills {h' : Heap} (hr : ∀ id, (h'.tlabs.get id).refills = (h.tlabs.get id).refills) :
    Installs h ts h' := by
  intro id hlt
  rw [hr] at hlt
  exact absurd hlt (Nat.lt_irrefl _)

/-- **A buffer grants words of its tail**, or has too few of them. -/
theorem bump_spec (hs : h.Sound ts) (hset : Settled ts) (id : TlabId) {n : Nat} (hn : 0 < n) :
    (h.bump id (n * h.space.granuleWords) = (none, h) ∧ (h.tlabs.get id).freeWords < n * h.space.granuleWords) ∨
    ∃ h' pre k post, h.bump id (n * h.space.granuleWords) = (some (h.space.address k), h') ∧
      Grants h ts h' pre k n post ∧ h'.memory = h.memory ∧
      (∀ id', (h.tlabs.get id').SameRange (h'.tlabs.get id')) ∧
      n * h.space.granuleWords ≤ (h.tlabs.get id).freeWords := by
  unfold bump
  rcases hs.mapped.bump id hn with hnone | ⟨pre, k, post, t, hrun, hid, hrange, hm, hk, hraw⟩
  · left
    refine ⟨by rw [hnone], ?_⟩
    unfold Tlab.allocate at hnone
    split at hnone
    · assumption
    · cases hnone
  · right
    have hframe : h.SameFrame { h with tlabs := h.tlabs.set id t } := ⟨.refl _, rfl, rfl, rfl, rfl, rfl, rfl, rfl, rfl⟩
    have howners : h.SameOwners { h with tlabs := h.tlabs.set id t } := ⟨rfl, rfl, rfl, rfl⟩
    have hget : ∀ id', (h.tlabs.get id').SameRange ((h.tlabs.set id t).get id') := by
      intro id'
      rw [TlabRegistry.get_set (hs.mapped.buffers.known id hid)]
      split
      · next he => exact he ▸ hrange
      · exact ⟨rfl, rfl, rfl⟩
    refine ⟨_, pre, k, post, by rw [hrun], ⟨hs.step hm hframe howners, ⟨hk, hframe, rfl, rfl⟩,
      settled_of_raw hset hraw, howners, installs_of_refills fun id' => (hget id').2.2⟩, rfl, hget, ?_⟩
    unfold Tlab.allocate at hrun
    split at hrun
    · cases hrun
    · next hfew => exact Nat.le_of_not_lt hfew

/-- **An allocation in a buffer of an external thread** leaves a filler, or changes nothing. -/
theorem allocateIn_spec (hs : h.Sound ts) (hset : Settled ts) (id : TlabId) (words : Nat) :
    (allocateIn id words).run h = .ok none h ∨
    ∃ h' ts' k, (allocateIn id words).run h = .ok (some (h.space.address k)) h' ∧ words ≤ h.space.region.wordSize ∧
      Places h ts h' ts' k (h.space.granulesFor words) ∧
      h'.memory = Object.fill h.memory (h.space.address k) (h.space.granulesFor words * h.space.granuleWords) := by
  have hg := hs.mapped.tiled.granule_pos
  by_cases hle : words ≤ h.space.region.wordSize
  case neg =>
    left
    unfold allocateIn
    rw [run_bind_of_ok (EStateM.run_get h), if_pos (h.space.refuses_iff.2 hle)]
    rfl
  have hno := mt h.space.refuses_iff.1 (not_not.2 hle)
  have hadj : h.adjust words = .ok (h.space.granulesFor words * h.space.granuleWords) := hs.mapped.tiled.adjust_eq hle
  have hpos := h.space.granulesFor_pos words hg
  rcases bump_spec hs hset id hpos with ⟨hnone, -⟩ | ⟨h', pre, k, post, hrun, hgr, hmem, -⟩
  · left
    unfold allocateIn
    rw [run_bind_of_ok (EStateM.run_get h), if_neg hno, run_bind_of_ok (EStateM.run_get h), hadj,
      run_bind_of_ok (run_lift_ok _ _), EStateM.run_modifyGet, hnone]
  · right
    have hplace := hgr.format (h.space.granulesFor words * h.space.granuleWords)
      (h.space.granulesFor_mul hg hpos) 0 Header.fillerFlag
    refine ⟨_, _, k, ?_, hle, hplace, by rw [hmem]; rfl⟩
    unfold allocateIn
    rw [run_bind_of_ok (EStateM.run_get h), if_neg hno, run_bind_of_ok (EStateM.run_get h), hadj,
      run_bind_of_ok (run_lift_ok _ _), EStateM.run_modifyGet, hrun]
    rfl

/-! ## Retirement -/

/-- **Retiring one buffer** makes its tail a filler. -/
theorem retireTlab_spec (hs : h.Sound ts) (hid : id ∈ h.tlabs.registered) :
    (h.retireTlab id).Sound (ts.map (Tile.retired [id])) ∧
      Carries h ts (h.retireTlab id) (ts.map (Tile.retired [id])) ∧ h.SameOwners (h.retireTlab id) ∧
      ((h.retireTlab id).tlabs.get id).isEmpty = true ∧
      ∀ id', ((h.retireTlab id).tlabs.get id').refills = (h.tlabs.get id').refills := by
  obtain ⟨m', hrun, hret⟩ := hs.mapped.retire hid
  generalize h.tlabs.set id (h.tlabs.get id).emptied = tlabs at hrun hret
  have hheap : h.retireTlab id = { h with memory := m', tlabs } := by rw [retireTlab, hrun]
  have hframe : h.SameFrame { h with memory := m', tlabs } := ⟨.refl _, rfl, rfl, rfl, rfl, rfl, rfl, rfl, rfl⟩
  have howners : h.SameOwners { h with memory := m', tlabs } := ⟨hret.registered, rfl, rfl, rfl⟩
  rw [hheap]
  exact ⟨hs.step hret.mapped hframe howners, ⟨hret.keeps, hframe, rfl, rfl⟩, howners,
    hret.isEmpty (List.mem_singleton_self id), hret.refills⟩

/-- **Dropping a buffer that no mutator owns.** -/
theorem dropTlab_spec (hs : h.Sound ts) (hset : Settled ts) (hid : id ∈ h.tlabs.registered)
    (hfree : ∀ m ∈ h.mutators, m.tlab ≠ id) :
    ∃ ts', (h.dropTlab id).Sound ts' ∧ Settled ts' ∧ Carries h ts (h.dropTlab id) ts' ∧
      Installs h ts (h.dropTlab id) ∧ (h.dropTlab id).tlabs.registered = h.tlabs.registered.filter (· != id) ∧
      (h.dropTlab id).mutators = h.mutators ∧ (h.dropTlab id).nextMutator = h.nextMutator := by
  obtain ⟨hs', hcar, how, hempty, hrefills⟩ := retireTlab_spec hs hid
  have hreg : (h.dropTlab id).tlabs.registered = h.tlabs.registered.filter (· != id) := by rw [← how.registered]; rfl
  have hm := hs'.mapped
  refine ⟨_, ⟨⟨hm.tiled, hm.headed, hm.buffers.unregister hempty, hm.countable⟩,
      hs'.framed.congr rfl rfl rfl rfl,
      ⟨hs'.mutators.nodup, hs'.mutators.issued⟩, hs'.idle, hs'.owners, ?_, hs'.sizes⟩, hset.retired _, ?_, installs_of_refills hrefills, hreg,
    how.mutators, how.issued⟩
  · intro m hm'
    have hmem := hs'.owned m hm'
    refine List.mem_filter.2 ⟨hmem, ?_⟩
    have hm'' : m ∈ h.mutators := by rw [← how.mutators]; exact hm'
    simpa using hfree m hm''
  · exact ⟨hcar.keeps, ⟨hcar.frame.grid, hcar.frame.covered, hcar.frame.bit_bytes, hcar.frame.map_words,
      hcar.frame.encoding, hcar.frame.max_tlab, hcar.frame.settings, hcar.frame.roots, hcar.frame.granted⟩, hcar.collections, hcar.lastCycle⟩

/-! ## Mutators -/

/-- **A new mutator** gets an empty buffer and holds nothing. -/
theorem newMutator_spec (hs : h.Sound ts) {i : MutatorId} {h' : Heap} (hrun : newMutator.run h = .ok i h') :
    h'.Sound ts ∧ Carries h ts h' ts ∧ Installs h ts h' ∧ i = h.nextMutator ∧ h'.nextMutator = h.nextMutator + 1 ∧
      h'.tlabs.registered = h.tlabs.registered ++ [h.tlabs.buffers.size] ∧ h.tlabs.buffers.size ∉ h.tlabs.registered ∧
      ∃ m, h'.mutators = h.mutators ++ [m] ∧ m.id = i ∧ m.tlab = h.tlabs.buffers.size ∧ m.roots = .empty := by
  have hidle := hs.idle
  have hregister : h.safepoint.register =
      some { h.safepoint with running := h.safepoint.running + 1, registered := h.safepoint.registered + 1 } := by
    unfold Safepoint.register
    rw [if_neg (by rw [hidle.requested]; decide)]
  unfold newMutator at hrun
  rw [run_bind_of_ok (EStateM.run_get h)] at hrun
  simp only [hregister] at hrun
  obtain ⟨minWords, h₁, hmin, hrun⟩ := run_bind_eq_ok hrun
  obtain ⟨tlabWords, h₂, hsize, hrun⟩ := run_bind_eq_ok hrun
  have hlift {x : Except Fault Nat} {a : Nat} {k k' : Heap} (hx : (liftM x : HeapM Nat).run k = .ok a k') :
      x = .ok a ∧ k' = k := by
    cases x with
    | ok b => rw [run_lift_ok] at hx; cases hx; exact ⟨rfl, rfl⟩
    | error f => rw [run_lift_error] at hx; cases hx
  obtain ⟨-, rfl⟩ := hlift hmin
  obtain ⟨hsize, rfl⟩ := hlift hsize
  simp only [EStateM.run_bind, EStateM.run_set, EStateM.run_pure, EStateM.Result.ok.injEq] at hrun
  obtain ⟨rfl, rfl⟩ := hrun
  have hm := hs.mapped
  have hnew : h₂.tlabs.buffers.size ∉ h₂.tlabs.registered := fun hmem => Nat.lt_irrefl _ (hm.buffers.known _ hmem)
  have hrefills : ∀ id, (h₂.tlabs.register.2.get id).refills = (h₂.tlabs.get id).refills := by
    intro id
    rw [TlabRegistry.get_register]
  refine ⟨⟨⟨hm.tiled, hm.headed, hm.buffers.register, hm.countable⟩,
      hs.framed.congr rfl rfl rfl rfl, hs.mutators.add rfl rfl rfl,
      by simpa using hidle.register hregister, ?_, ?_, ?_⟩,
    ⟨.refl _ _ _, ⟨.refl _, rfl, rfl, rfl, rfl, rfl, rfl, rfl, rfl⟩, rfl, rfl⟩, installs_of_refills hrefills, rfl, rfl, rfl, hnew,
    _, rfl, rfl, rfl, rfl⟩
  · simp only [List.map_append, List.map_cons, List.map_nil]
    rw [← List.concat_eq_append]
    apply hs.owners.concat
    intro hmem
    obtain ⟨m, hm', he⟩ := List.mem_map.1 hmem
    have he' : m.tlab = h₂.tlabs.buffers.size := he
    exact hnew (he' ▸ hs.owned m hm')
  · intro m hm'
    show m.tlab ∈ h₂.tlabs.registered ++ [h₂.tlabs.buffers.size]
    rcases List.mem_append.1 hm' with hm' | hm'
    · exact List.mem_append_left _ (hs.owned m hm')
    · rw [List.mem_singleton] at hm'
      rw [hm']
      simp [TlabRegistry.register]
  · intro m hm'
    rcases List.mem_append.1 hm' with hm' | hm'
    · exact hs.sizes m hm'
    · rw [List.mem_singleton.1 hm']
      obtain ⟨n, hn, hwords, -, hle⟩ := tlabSizeFor_spec hs.framed.max_tlab_dvd hsize
      exact ⟨hwords ▸ Nat.le_mul_of_pos_left _ hn, hle⟩

/-- A mutator can start where the region is as large as the smallest buffer. -/
theorem exists_newMutator (hs : h.Sound ts) (hmin : h.settings.minTlabSize / wordBytes ≤ h.space.region.wordSize) :
    ∃ i h', newMutator.run h = .ok i h' := by
  have hregister : h.safepoint.register ≠ none := by
    unfold Safepoint.register
    rw [if_neg (by rw [hs.idle.requested]; decide)]
    simp
  obtain ⟨s, hs'⟩ := Option.ne_none_iff_exists'.1 hregister
  have hadj {words : Nat} (hle : words ≤ h.space.region.wordSize) : ∃ n, h.adjust words = .ok n :=
    ⟨_, hs.mapped.tiled.adjust_eq hle⟩
  obtain ⟨minWords, hminWords⟩ := hadj hmin
  obtain ⟨tlabWords, htlabWords⟩ :
      ∃ n, h.tlabSizeFor (min minWords h.maxTlabWords) (h.settings.tlabSize / wordBytes) = .ok n := by
    rw [tlabSizeFor_of_le (Nat.min_le_right _ _)]
    exact hadj (Nat.le_trans (Nat.max_le.2 ⟨Nat.min_le_right _ _, Nat.min_le_right _ _⟩) hs.framed.max_tlab)
  unfold newMutator
  rw [run_bind_of_ok (EStateM.run_get h), hs']
  simp only
  rw [hminWords, run_bind_of_ok (run_lift_ok _ _), htlabWords, run_bind_of_ok (run_lift_ok _ _)]
  exact ⟨_, _, rfl⟩

/-! ## What mutators hold -/

/-- Mutators keep everything but what they hold. -/
theorem mem_updateRoots {i : MutatorId} {f : RootSlots → RootSlots} {m : Mutator} (hm : m ∈ (h.updateRoots i f).mutators) :
    ∃ m' ∈ h.mutators, m.id = m'.id ∧ m.tlab = m'.tlab ∧ m.tlabWords = m'.tlabWords ∧
      (m.roots = m'.roots ∨ m.roots = f m'.roots) := by
  obtain ⟨m', hm', rfl⟩ := List.mem_map.1 hm
  refine ⟨m', hm', ?_⟩
  split
  · exact ⟨rfl, rfl, rfl, .inr rfl⟩
  · exact ⟨rfl, rfl, rfl, .inl rfl⟩

theorem map_updateRoots {β : Type} {i : MutatorId} {f : RootSlots → RootSlots} {g : Mutator → β}
    (hg : ∀ (m : Mutator) (r : RootSlots), g { m with roots := r } = g m) :
    (h.updateRoots i f).mutators.map g = h.mutators.map g := by
  unfold Heap.updateRoots
  simp only [List.map_map]
  apply List.map_congr_left
  intro m _
  simp only [Function.comp]
  split
  · exact hg m (f m.roots)
  · rfl

theorem Sound.updateRoots (hs : h.Sound ts) (i : MutatorId) (f : RootSlots → RootSlots) : (h.updateRoots i f).Sound ts := by
  refine ⟨hs.mapped, hs.framed.congr rfl rfl rfl rfl, ⟨?_, ?_⟩, ?_, ?_, ?_, ?_⟩
  · rw [map_updateRoots fun _ _ => rfl]
    exact hs.mutators.nodup
  · intro m hm
    obtain ⟨m', hm', he, -⟩ := mem_updateRoots hm
    rw [he]
    exact hs.mutators.issued m' hm'
  · have hlen : (h.updateRoots i f).mutators.length = h.mutators.length := List.length_map _
    rw [hlen]
    exact hs.idle
  · rw [map_updateRoots fun _ _ => rfl]
    exact hs.owners
  · intro m hm
    obtain ⟨m', hm', -, he, -⟩ := mem_updateRoots hm
    rw [he]
    exact hs.owned m' hm'
  · intro m hm
    obtain ⟨m', hm', -, -, he, -⟩ := mem_updateRoots hm
    rw [he]
    exact hs.sizes m' hm'

/-! ## Allocation of a mutator -/

/-- The tail of a buffer that gets new words, and the granted words at its low end. -/
theorem install_bump_spec (hs : h.Sound ts) (hid : id ∈ h.tlabs.registered) {pre post : List Tile} {k c n : Nat}
    (hts : ts = pre ++ ⟨.raw, k, c⟩ :: post) (hset : Settled (pre ++ post)) (hempty : (h.tlabs.get id).isEmpty = true)
    (hn : 0 < n) (hle : n ≤ c) :
    ∃ h' pre' k' post', (h.installTlab id (h.space.address k) (c * h.space.granuleWords)).bump id (n * h.space.granuleWords) =
        (some (h.space.address k'), h') ∧ h'.Sound (pre' ++ ⟨.raw, k', n⟩ :: post') ∧
      Carries h ts h' (pre' ++ ⟨.raw, k', n⟩ :: post') ∧ Settled (pre' ++ post') ∧ h.SameOwners h' ∧
      (h'.tlabs.get id).start = h.space.address k ∧ (h'.tlabs.get id).stop = h.space.address (k + c) ∧
      ∀ id', id' ≠ id → (h'.tlabs.get id').refills = (h.tlabs.get id').refills := by
  subst hts
  have hg := hs.mapped.tiled.granule_pos
  obtain ⟨hm, hk⟩ := hs.mapped.install hs.framed.start_pos hid hempty
  have hget := TlabRegistry.get_set (hs.mapped.buffers.known id hid)
    ((h.tlabs.get id).install (h.space.address k) (c * h.space.granuleWords))
  generalize hh1 : h.installTlab id (h.space.address k) (c * h.space.granuleWords) = h₁
  have htlabs : h₁.tlabs = h.tlabs.set id ((h.tlabs.get id).install (h.space.address k) (c * h.space.granuleWords)) := by
    rw [← hh1]; rfl
  have hframe : h.SameFrame h₁ := by rw [← hh1]; exact ⟨.refl _, rfl, rfl, rfl, rfl, rfl, rfl, rfl, rfl⟩
  have howners : h.SameOwners h₁ := by rw [← hh1]; exact ⟨rfl, rfl, rfl, rfl⟩
  have hs₁ : h₁.Sound (pre ++ ⟨.tail id, k, c⟩ :: post) := hs.step (by rw [← hh1]; exact hm) hframe howners
  have hspace : h₁.space = h.space := by rw [← hh1]; rfl
  have hset₁ : Settled (pre ++ ⟨.tail id, k, c⟩ :: post) := hset.insert (by simp)
  have hstop : ((h.tlabs.get id).install (h.space.address k) (c * h.space.granuleWords)).stop = h.space.address (k + c) :=
    h.space.address_add_words k c
  rcases bump_spec hs₁ hset₁ id hn with ⟨-, hfew⟩ | ⟨h', pre', k', post', hrun, hgr, -, hrange, -⟩
  · -- the new words are enough for the request
    rw [htlabs, hget, if_pos rfl, Tlab.freeWords, hstop, hspace] at hfew
    simp only [Tlab.install, Space.words_between, Nat.add_sub_cancel_left] at hfew
    exact absurd hfew (Nat.not_lt_of_le (Nat.mul_le_mul_right _ hle))
  · rw [hspace] at hrun
    have hid' := hrange id
    rw [htlabs, hget, if_pos rfl] at hid'
    refine ⟨h', pre', k', post', hrun, hgr.sound, Carries.trans ⟨by rw [← hh1]; exact hk, hframe, ?_, ?_⟩ hgr.carries,
      hgr.settled, howners.trans hgr.owners, hid'.1, hid'.2.1.trans hstop, ?_⟩
    · rw [← hh1]; rfl
    · rw [← hh1]; rfl
    · intro id' hne
      rw [(hrange id').2.2, htlabs, hget, if_neg hne]

/-- A buffer for words that the largest one can hold has a size, which is whole granules and no less than the words. -/
theorem exists_tlabSize (hs : h.Sound ts) (requested : Nat) {n : Nat}
    (hle : n * h.space.granuleWords ≤ h.maxTlabWords) :
    ∃ c, h.tlabSizeFor (n * h.space.granuleWords) requested = .ok (c * h.space.granuleWords) ∧ 0 < c ∧ n ≤ c ∧
      c ≤ h.space.granulesFor h.maxTlabWords := by
  have hg := hs.mapped.tiled.granule_pos
  have hrequest : max (min requested h.maxTlabWords) (n * h.space.granuleWords) ≤ h.maxTlabWords :=
    Nat.max_le.2 ⟨Nat.min_le_right _ _, hle⟩
  have hsize : h.tlabSizeFor (n * h.space.granuleWords) requested =
      .ok (h.space.granulesFor (max (min requested h.maxTlabWords) (n * h.space.granuleWords)) * h.space.granuleWords) := by
    rw [tlabSizeFor_of_le hle]
    exact hs.mapped.tiled.adjust_eq (Nat.le_trans hrequest hs.framed.max_tlab)
  refine ⟨_, hsize, h.space.granulesFor_pos _ hg, ?_, h.space.granulesFor_mono hrequest⟩
  refine Nat.le_of_mul_le_mul_right (Nat.le_trans ?_ (h.space.words_le_granulesFor _ hg)) hg
  exact Nat.le_max_right _ _

/-- The first part of `refillOrCarve`, which takes words from the free list at most once. -/
def refill (m : Mutator) (words : Nat) : HeapM (Option Address) := do
  if words ≤ m.tlabWords ∧ ((← get).tlabs.get m.tlab).freeWords ≤ m.refillWasteLimit then
    let size ← (← get).tlabSizeFor words m.tlabWords
    match ← carve size with
    | some start => modifyGet fun h => ((h.retireTlab m.tlab).installTlab m.tlab start size).bump m.tlab words
    | none => return none
  else
    return none

/-- **A mutator gets a new buffer**, or nothing changes and it may still get words of their own.  It is stopped where the
largest buffer has no words. -/
theorem refill_spec (hs : h.Sound ts) (hset : Settled ts) {m : Mutator} (hm : m ∈ h.mutators)
    (htlab : h.space.Countable h.maxTlabWords) {n : Nat} (hn : 0 < n) :
    ((refill m (n * h.space.granuleWords)).run h = .ok none h ∧
      (refillOrCarve m (n * h.space.granuleWords)).run h = (carve (n * h.space.granuleWords)).run h) ∨
    (∃ h' pre k post, (refill m (n * h.space.granuleWords)).run h = .ok (some (h.space.address k)) h' ∧
      (refillOrCarve m (n * h.space.granuleWords)).run h = .ok (some (h.space.address k)) h' ∧
      Grants h ts h' pre k n post ∧ h.HasRoom (n * h.space.granuleWords)) ∨
    ((refillOrCarve m (n * h.space.granuleWords)).run h = .error (.aboveLargestTlab (n * h.space.granuleWords)) h ∧
      h.maxTlabWords = 0) := by
  have hg := hs.mapped.tiled.granule_pos
  unfold refill refillOrCarve
  simp only [EStateM.run_bind, EStateM.run_get]
  by_cases hrefill : n * h.space.granuleWords ≤ m.tlabWords ∧ (h.tlabs.get m.tlab).freeWords ≤ m.refillWasteLimit
  case neg =>
    rw [if_neg hrefill, if_neg hrefill]
    exact .inl ⟨rfl, rfl⟩
  rw [if_pos hrefill, if_pos hrefill]
  rcases Nat.lt_or_ge h.maxTlabWords (n * h.space.granuleWords) with hlt | hle
  · simp only [EStateM.run_bind, EStateM.run_get, tlabSizeFor_of_lt hlt, run_lift_error, true_and]
    exact .inr (.inr (hs.maxTlabWords_eq_zero hm hrefill.1 hlt))
  obtain ⟨c, hsize, hc, hmin, hmax⟩ := exists_tlabSize hs m.tlabWords hle
  have hsize' : h.space.Countable (c * h.space.granuleWords) := by
    intro _
    rw [h.space.granulesFor_mul hg hc]
    exact Nat.lt_of_le_of_lt (Nat.mul_le_mul_right _ hmax) (htlab hs.framed.max_tlab)
  simp only [EStateM.run_bind, EStateM.run_get, hsize, run_lift_ok]
  rcases carve_spec hs hset hsize' with ⟨hnone, -⟩ | ⟨h₁, pre, k, post, hrun, hgr, htlabs, -, hroom⟩
  · rw [hnone]
    exact .inl ⟨rfl, rfl⟩
  right
  left
  rw [h.space.granulesFor_mul hg hc] at hgr hroom
  have hid : m.tlab ∈ h₁.tlabs.registered := by rw [htlabs]; exact hs.owned m hm
  obtain ⟨hs₂, hcar₂, how₂, hempty, hrefills⟩ := retireTlab_spec hgr.sound hid
  have hset₂ := hgr.settled.retired [m.tlab]
  rw [List.map_append] at hset₂
  rw [List.map_append, List.map_cons] at hs₂ hcar₂
  have hframe := hgr.carries.frame.trans hcar₂.frame
  obtain ⟨h', pre', k', post', hbump, hs', hcar', hset', how', hstart, hstop, hother⟩ :=
    install_bump_spec hs₂ (by rw [how₂.registered]; exact hid) rfl hset₂ hempty hn hmin
  rw [hframe.grid.address, hframe.grid.2] at hbump
  rw [hframe.grid.address] at hstart hstop
  rw [hframe.grid.address] at hbump
  rw [hrun]
  simp only [EStateM.run_modifyGet, hbump]
  refine ⟨h', pre', k', post', rfl, rfl, ⟨hs', (hgr.carries.trans hcar₂).trans hcar', hset',
    (hgr.owners.trans how₂).trans how', installs_of_install _ hgr.apart hstart hstop ?_⟩,
    hroom.mono (Nat.mul_le_mul_right _ hmin)⟩
  intro id' hne
  rw [hother id' hne, hrefills, htlabs]

/-- **A mutator gets a new buffer or words of its own**, or nothing changes where there is no room. -/
theorem refillOrCarve_spec (hs : h.Sound ts) (hset : Settled ts) {m : Mutator} (hm : m ∈ h.mutators)
    (htlab : h.space.Countable h.maxTlabWords) {n : Nat} (hn : 0 < n)
    (hcount : n * h.space.granuleWords < Header.sizeLimit) :
    ((refillOrCarve m (n * h.space.granuleWords)).run h = .ok none h ∧ ¬h.HasRoom (n * h.space.granuleWords)) ∨
    (∃ h' pre k post, (refillOrCarve m (n * h.space.granuleWords)).run h = .ok (some (h.space.address k)) h' ∧
      Grants h ts h' pre k n post ∧ h.HasRoom (n * h.space.granuleWords)) ∨
    ((refillOrCarve m (n * h.space.granuleWords)).run h = .error (.aboveLargestTlab (n * h.space.granuleWords)) h ∧
      h.maxTlabWords = 0) := by
  have hround := h.space.granulesFor_mul hs.mapped.tiled.granule_pos hn
  rcases refill_spec hs hset hm htlab hn with ⟨-, hrun⟩ | ⟨h', pre, k, post, -, hrun, hgr⟩ | hstops
  · rw [hrun]
    have hcarve := carve_spec hs hset (show h.space.Countable (n * h.space.granuleWords) from fun _ => by rwa [hround])
    rw [hround] at hcarve
    rcases hcarve with hnone | ⟨h', pre, k, post, hsome, hgr, -, -, hroom⟩
    · exact .inl hnone
    · exact .inr (.inl ⟨h', pre, k, post, hsome, hgr, hroom⟩)
  · exact .inr (.inl ⟨h', pre, k, post, hrun, hgr⟩)
  · exact .inr (.inr hstops)

theorem run_allocateFor {i : MutatorId} {m : Mutator} {words n : Nat} (hfit : words ≤ h.space.region.wordSize)
    (hmut : h.mutator i = .ok m) (hadj : h.adjust words = .ok n) : (allocateFor i words).run h = (do
      match ← modifyGet (·.bump m.tlab n) with
      | some a => return .ok a
      | none =>
        match ← refillOrCarve m n with
        | some a => return .ok a
        | none =>
          collectForAllocation (some i)
          match ← refillOrCarve m n with
          | some a => return .ok a
          | none => return .error (.outOfMemory n) : HeapM (Except HeapError Address)).run h := by
  unfold allocateFor
  rw [run_bind_of_ok (EStateM.run_get h), hmut, run_bind_of_ok (run_lift_ok _ _), run_bind_of_ok (EStateM.run_get h),
    if_neg (mt h.space.refuses_iff.1 (not_not.2 hfit)), run_bind_of_ok (EStateM.run_get h), hadj]
  exact run_bind_of_ok (run_lift_ok _ _)

theorem run_bump {h' : Heap} {n : Nat} {r : Option Address} (hb : h.bump id n = (r, h')) :
    (modifyGet (·.bump id n) : HeapM (Option Address)).run h = .ok r h' := by
  rw [EStateM.run_modifyGet, hb]

/-- A cycle gives no buffer any words. -/
theorem Passes.bump_none {h₁ : Heap} {ts₁ : List Tile} {j : Option MutatorId} {cause : Cause}
    (p : h.Passes ts j cause h₁ ts₁) {n : Nat} (hn : 0 < n) (hnone : h.bump id n = (none, h)) :
    h₁.bump id n = (none, h₁) := by
  unfold bump at hnone ⊢
  rcases p with ⟨hun, -⟩ | ⟨stats, -, hcol⟩
  · rw [hun.tlabs]
    split at hnone
    · rfl
    · cases hnone
  · have hempty : (h₁.tlabs.get id).freeWords = 0 := by
      rcases hcol.mapped.tail_cases id with ⟨hzero, -⟩ | ⟨-, -, -, -, -, hne, -⟩
      · exact hzero
      · rw [hcol.retired] at hne
        cases hne
    rw [Tlab.allocate, hempty, if_pos hn]

/-- The first attempt of a mutator, in its buffer and then in the free list, decides the request or is left for a cycle. -/
theorem allocateFor_first (hs : h.Sound ts) (hset : Settled ts) {i : MutatorId} {m : Mutator} (hmut : h.mutator i = .ok m)
    (htlab : h.space.Countable h.maxTlabWords) {words n : Nat} (hle : words ≤ h.space.region.wordSize) (hn : 0 < n)
    (hcount : n * h.space.granuleWords < Header.sizeLimit) (hadj : h.adjust words = .ok (n * h.space.granuleWords)) :
    (∃ h' pre k post, (allocateFor i words).run h = .ok (.ok (h.space.address k)) h' ∧ Grants h ts h' pre k n post ∧
      h.HasRoomFor m (n * h.space.granuleWords)) ∨
    ((allocateFor i words).run h = .error (.aboveLargestTlab (n * h.space.granuleWords)) h ∧ h.maxTlabWords = 0) ∨
    (h.bump m.tlab (n * h.space.granuleWords) = (none, h) ∧ ¬h.HasRoomFor m (n * h.space.granuleWords) ∧
      (allocateFor i words).run h = (do
        collectForAllocation (some i)
        match ← refillOrCarve m (n * h.space.granuleWords) with
        | some a => return .ok a
        | none => return .error (.outOfMemory (n * h.space.granuleWords)) : HeapM (Except HeapError Address)).run h) := by
  have hrun := run_allocateFor hle hmut hadj
  rcases bump_spec hs hset m.tlab hn with ⟨hbump, hfew⟩ | ⟨h', pre, k, post, hbump, hgr, -, -, henough⟩
  case inr =>
    rw [run_bind_of_ok (run_bump hbump)] at hrun
    exact .inl ⟨h', pre, k, post, hrun, hgr, .inl henough⟩
  rw [run_bind_of_ok (run_bump hbump)] at hrun
  simp only at hrun
  rcases refillOrCarve_spec hs hset (mutator_eq_ok hmut).1 htlab hn hcount with
    ⟨hrefill, hnone⟩ | ⟨h', pre, k, post, hrefill, hgr, hroom⟩ | ⟨hstops, hzero⟩
  · rw [run_bind_of_ok hrefill] at hrun
    exact .inr (.inr ⟨hbump, not_or.2 ⟨Nat.not_le_of_lt hfew, hnone⟩, hrun⟩)
  · rw [run_bind_of_ok hrefill] at hrun
    exact .inl ⟨h', pre, k, post, hrun, hgr, .inr hroom⟩
  · rw [EStateM.run_bind, hstops] at hrun
    exact .inr (.inl ⟨hrun, hzero⟩)

/-- After a cycle the mutator and its words are the same and its buffer has none of them, so that a request starts with the
free list. -/
theorem Passes.allocateFor_again {h₁ h' : Heap} {ts₁ : List Tile} {cause : Cause} {i : MutatorId} {m : Mutator}
    {words n : Nat} {a : Address} (p : h.Passes ts (some i) cause h₁ ts₁) (hle : words ≤ h.space.region.wordSize) (hn : 0 < n)
    (hmut : h.mutator i = .ok m) (hadj : h.adjust words = .ok n) (hbump : h.bump m.tlab n = (none, h))
    (hrefill : (refillOrCarve m n).run h₁ = .ok (some a) h') : (allocateFor i words).run h₁ = .ok (.ok a) h' := by
  have hmut₁ : h₁.mutator i = .ok m := by
    unfold Heap.mutator mutator? at hmut ⊢
    rwa [p.mutators.1]
  rw [run_allocateFor (by rw [p.frame.grid.1]; exact hle) hmut₁ ((p.frame.adjust words).trans hadj),
    run_bind_of_ok (run_bump (p.bump_none hn hbump))]
  simp only
  rw [run_bind_of_ok hrefill]
  exact EStateM.run_pure ..

/-- **An allocation of a mutator** grants it words, after a cycle where that is needed, or is refused.  The heap that a
cycle leaves serves it in the same way.  It is stopped only where the largest buffer has no words. -/
theorem allocateFor_spec {P : Address → Prop} (hs : h.Sound ts) (hset : Settled ts)
    (hc : Closed h.space h.memory h.encoding ts P) (hr : h.Rooted P) {i : MutatorId} {m : Mutator}
    (hmut : h.mutator i = .ok m) (htlab : h.space.Countable h.maxTlabWords) {words : Nat}
    (hwords : h.space.Countable words) :
    ∃ h₁ ts₁, Passes h ts (some i) .allocationFailure h₁ ts₁ ∧ h₁.Sound ts₁ ∧ Settled ts₁ ∧
      ((∃ e, (allocateFor i words).run h = .ok (.error e) h₁ ∧
        h.Answers (some i) words (h.HasRoomFor m) (.error e) h₁) ∨
      (∃ h' pre k post, (allocateFor i words).run h = .ok (.ok (h.space.address k)) h' ∧
        (allocateFor i words).run h₁ = .ok (.ok (h.space.address k)) h' ∧ words ≤ h.space.region.wordSize ∧
        Grants h₁ ts₁ h' pre k (h.space.granulesFor words) post ∧
        h.Answers (some i) words (h.HasRoomFor m) (.ok (h.space.address k)) h') ∨
      ((allocateFor i words).run h = .error (.aboveLargestTlab (h.space.granulesFor words * h.space.granuleWords)) h₁ ∧
        h.maxTlabWords = 0)) := by
  obtain ⟨hm, hmid⟩ := mutator_eq_ok hmut
  have hreg : ∀ j, some i = some j → ∃ m ∈ h.mutators, m.id = j := fun j hj => by cases hj; exact ⟨m, hm, hmid⟩
  have hg := hs.mapped.tiled.granule_pos
  by_cases hle : words ≤ h.space.region.wordSize
  case neg =>
    refine ⟨h, ts, .inl ⟨.refl h, rfl⟩, hs, hset, .inl ⟨.outOfMemory words, ?_, answers_of_huge hle⟩⟩
    unfold allocateFor
    rw [run_bind_of_ok (EStateM.run_get h), hmut, run_bind_of_ok (run_lift_ok _ _), run_bind_of_ok (EStateM.run_get h),
      if_pos (h.space.refuses_iff.2 hle)]
    rfl
  have hadj : h.adjust words = .ok (h.space.granulesFor words * h.space.granuleWords) := hs.mapped.tiled.adjust_eq hle
  have hpos := h.space.granulesFor_pos words hg
  rcases allocateFor_first hs hset hmut htlab hle hpos (hwords hle) hadj with
    ⟨h', pre, k, post, hrun, hgr, hroom⟩ | hstops | ⟨hbump, hnever, hrun⟩
  · exact ⟨h, ts, .inl ⟨.refl h, rfl⟩, hs, hset, .inr (.inl ⟨h', pre, k, post, hrun, hrun, hle, hgr,
      answers_of_ready hle hadj hroom hgr.quiet⟩)⟩
  · exact ⟨h, ts, .inl ⟨.refl h, rfl⟩, hs, hset, .inr (.inr hstops)⟩
  obtain ⟨h₁, ts₁, c, hcol, hpass, hs₁, hset₁, hcycle⟩ := collectForAllocation_spec hs hset hc hr (some i) hreg
  have hgrid := hpass.frame.grid
  rw [run_bind_of_ok hcol] at hrun
  refine ⟨h₁, ts₁, hpass, hs₁, hset₁, ?_⟩
  have hsecond := refillOrCarve_spec hs₁ hset₁ (by rw [hpass.mutators.1]; exact hm)
    (by rw [hpass.frame.max_tlab]; exact hgrid.countable htlab) hpos (by rw [hgrid.2]; exact hwords hle)
  rw [hgrid.2] at hsecond
  rcases hsecond with ⟨hsecond, hnone'⟩ | ⟨h', pre, k, post, hsecond, hgr, hroom⟩ | ⟨hstops, hzero⟩
  · rw [run_bind_of_ok hsecond] at hrun
    exact .inl ⟨_, hrun, answers_of_retries hle hadj hnever (hcycle.refused hnone')⟩
  · rw [hgrid.address] at hsecond
    rw [run_bind_of_ok hsecond] at hrun
    exact .inr (.inl ⟨h', pre, k, post, hrun,
      hpass.allocateFor_again hle (Nat.mul_pos hpos hg) hmut hadj hbump hsecond, hle, hgr,
      answers_of_retries hle hadj hnever (hcycle.served hroom hgr.quiet)⟩)
  · rw [EStateM.run_bind, hstops] at hrun
    exact .inr (.inr ⟨hrun, hpass.frame.max_tlab ▸ hzero⟩)

/-- **A mutator is stopped by a request for a granule** where its buffer is empty and the largest one has no words. -/
theorem allocateFor_stops (hs : h.Sound ts) {i : MutatorId} {m : Mutator} (hmut : h.mutator i = .ok m)
    (hempty : (h.tlabs.get m.tlab).freeWords = 0) (hzero : h.maxTlabWords = 0) :
    (allocateFor i h.space.granuleWords).run h = .error (.aboveLargestTlab h.space.granuleWords) h := by
  have hg := hs.mapped.tiled.granule_pos
  have hfit : h.space.granuleWords ≤ h.space.region.wordSize := by
    rw [hs.mapped.tiled.wordSize_eq]
    exact Nat.le_mul_of_pos_left _ hs.framed.nonempty
  have hadj : h.adjust h.space.granuleWords = .ok h.space.granuleWords := by
    have hround := h.space.granulesFor_mul hg Nat.one_pos
    rw [Nat.one_mul] at hround
    rw [Heap.adjust, hs.mapped.tiled.adjust_eq hfit, hround, Nat.one_mul]
  have hbump : h.bump m.tlab h.space.granuleWords = (none, h) := by
    rw [bump, Tlab.allocate, hempty, if_pos hg]
  have hrefill : (refillOrCarve m h.space.granuleWords).run h = .error (.aboveLargestTlab h.space.granuleWords) h := by
    unfold refillOrCarve
    rw [run_bind_of_ok (EStateM.run_get h), if_pos ⟨(hs.sizes m (mutator_eq_ok hmut).1).1, hempty ▸ Nat.zero_le _⟩,
      run_bind_of_ok (EStateM.run_get h), tlabSizeFor_of_lt (hzero ▸ hg)]
    rfl
  rw [run_allocateFor hfit hmut hadj, run_bind_of_ok (run_bump hbump)]
  simp only
  rw [EStateM.run_bind, hrefill]

/-- A mutator whose buffer is empty can go. -/
theorem Sound.remove (hs : h.Sound ts) {m : Mutator} (hm : m ∈ h.mutators) (hempty : (h.tlabs.get m.tlab).isEmpty = true)
    {s : Safepoint} (hidle : ∀ n, n + 1 = h.mutators.length → s.Idle n) :
    ({ h with
      safepoint := s, tlabs := h.tlabs.unregister m.tlab, mutators := h.mutators.filter (·.id != m.id) } : Heap).Sound ts := by
  have hmm := hs.mapped
  have hsub : ∀ m' ∈ h.mutators.filter (·.id != m.id), m' ∈ h.mutators ∧ m'.id ≠ m.id := by
    intro m' hm'
    simpa using hm'
  refine ⟨⟨hmm.tiled, hmm.headed, hmm.buffers.unregister hempty, hmm.countable⟩,
    hs.framed.congr rfl rfl rfl rfl,
    hs.mutators.filter rfl rfl, hidle _ (length_filter_id hs.mutators.nodup hm), hs.owners.sublist (List.filter_sublist.map _),
    ?_, fun m' hm' => hs.sizes m' (hsub m' hm').1⟩
  intro m' hm'
  obtain ⟨h1, h2⟩ := hsub m' hm'
  refine List.mem_filter.2 ⟨hs.owned m' h1, ?_⟩
  have hne : m'.tlab ≠ m.tlab := fun he => h2 (congrArg (·.id) (List.inj_on_of_nodup_map hs.owners h1 hm he))
  simpa using hne

/-- **The end of a mutator** retires its buffer; its references count no more. -/
theorem dropMutator_spec (hs : h.Sound ts) (hset : Settled ts) {i : MutatorId} (hi : ∃ m ∈ h.mutators, m.id = i) :
    ∃ h' ts' m, m ∈ h.mutators ∧ m.id = i ∧ (dropMutator i).run h = .ok () h' ∧ h'.Sound ts' ∧ Settled ts' ∧
      Carries h ts h' ts' ∧ Installs h ts h' ∧ h'.tlabs.registered = h.tlabs.registered.filter (· != m.tlab) ∧
      h'.mutators = h.mutators.filter (·.id != i) ∧ h'.nextMutator = h.nextMutator := by
  obtain ⟨m₀, hm₀, rfl⟩ := hi
  obtain ⟨m, hmut⟩ := mutator_of_mem hm₀
  obtain ⟨hm, hmid⟩ := mutator_eq_ok hmut
  obtain ⟨hs', hcar, how, hempty, hrefills⟩ := retireTlab_spec hs (hs.owned m hm)
  have hidle := hs'.idle
  rw [how.mutators] at hidle
  have hrun : (h.retireTlab m.tlab).safepoint.unregister = .ok { (h.retireTlab m.tlab).safepoint with
      running := (h.retireTlab m.tlab).safepoint.running - 1
      registered := (h.retireTlab m.tlab).safepoint.registered - 1 } := by
    have := List.length_pos_of_mem hm
    unfold Safepoint.unregister
    rw [if_neg (by rw [hidle.running, hidle.registered]; omega)]
  have hs'' := hs'.remove (m := m) (by rw [how.mutators]; exact hm) hempty
    (s := { (h.retireTlab m.tlab).safepoint with
      running := (h.retireTlab m.tlab).safepoint.running - 1
      registered := (h.retireTlab m.tlab).safepoint.registered - 1 })
    fun n hn => by
      rw [how.mutators] at hn
      rw [← hn] at hidle
      exact hidle.unregister hrun
  refine ⟨_, _, m, hm, hmid, ?_, hs'', hset.retired _,
    ⟨hcar.keeps, ⟨hcar.frame.1, hcar.frame.2, hcar.frame.3, hcar.frame.4, hcar.frame.5, hcar.frame.6, hcar.frame.7,
      hcar.frame.8, hcar.frame.9⟩, hcar.collections, hcar.lastCycle⟩,
    installs_of_refills hrefills, ?_, ?_, how.issued⟩
  · unfold dropMutator
    simp only [EStateM.run_bind, EStateM.run_get, hmut, run_lift_ok, EStateM.run_modify, hrun, EStateM.run_set]
    rw [hmid]
  · rw [← how.registered]
    rfl
  · rw [hmid, ← how.mutators]

end Heap
end MarkSweep
