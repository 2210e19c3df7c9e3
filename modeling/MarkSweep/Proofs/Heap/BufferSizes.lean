import MarkSweep.Proofs.Heap.Measured
/-!
# Sizes of buffers

A buffer is as large as was asked for, no larger than the largest one, and a mutator gives one up only where few words are
left (`Heap.Bounded`).  That is true of every heap whose largest buffer has a granule at least, and of no other
(`create_bounded_iff`): where the settings ask for buffers of less than a word, the largest buffer has no words, yet what is
carved for one is a granule.
-/
namespace MarkSweep
namespace Heap

variable {α : Type} {h h' : Heap}

/-! ## Buffers as they are installed -/

/-- A buffer for at least `least` words where none has more than `most`: whole granules of the heap. -/
structure Fits (h : Heap) (least most : Nat) (t : Tlab) : Prop where
  granules : h.space.granuleWords ∣ t.sizeWords
  pos : 0 < t.sizeWords
  least : least ≤ t.sizeWords
  most : t.sizeWords ≤ most
  low : h.low ≤ t.start
  high : t.stop ≤ h.high

theorem fits_of_range {t : Tlab} (hs : h.space.Regular) {k n least most : Nat} (hn : 0 < n)
    (hend : k + n ≤ h.space.granules) (hstart : t.start = h.space.address k)
    (hstop : t.stop = h.space.address k + n * h.space.granuleWords * wordBytes)
    (hleast : least ≤ n * h.space.granuleWords) (hmost : n * h.space.granuleWords ≤ most) : h.Fits least most t := by
  have hsize : t.sizeWords = n * h.space.granuleWords := by
    rw [Tlab.sizeWords, hstart, hstop, Nat.add_sub_cancel_left, Nat.mul_div_cancel _ (by decide)]
  refine ⟨?_, ?_, ?_, ?_, ?_, ?_⟩
  · rw [hsize]
    exact Nat.dvd_mul_left _ _
  · rw [hsize]
    exact Nat.mul_pos hn hs.granule_pos
  · rwa [hsize]
  · rwa [hsize]
  · rw [hstart]
    exact h.space.start_le_address k
  · rw [hstop, Space.address_add_words, high, hs.stop_eq]
    exact hs.address_le.2 hend

/-- The buffer of mutator `m` grants `w` words at `a`. -/
def Bumps (h : Heap) (m : Mutator) (w : Nat) (a : Address) (h' : Heap) : Prop :=
  ∃ t, (h.tlabs.get m.tlab).allocate w = some (a, t) ∧ h'.tlabs = h.tlabs.set m.tlab t

/-- Mutator `m` gives its buffer up and gets `w` words at the start `a` of a new one. -/
structure Refills (h : Heap) (m : Mutator) (w most : Nat) (a : Address) (h' : Heap) : Prop where
  desired : w ≤ m.tlabWords
  waste : (h.tlabs.get m.tlab).freeWords ≤ m.tlabWords / tlabRefillWasteFraction
  fits : h'.Fits w most (h'.tlabs.get m.tlab)
  start : (h'.tlabs.get m.tlab).start = a
  granted : (h'.tlabs.get m.tlab).usedWords = w
  refills : (h'.tlabs.get m.tlab).refills = (h.tlabs.get m.tlab).refills + 1
  others : ∀ id, id ≠ m.tlab → h'.tlabs.get id = h.tlabs.get id

/-- A buffer that is given up for a new one grants the words at the start of the new one. -/
theorem exists_refilled {id : TlabId} (hid : id < h.tlabs.buffers.size) (start : Address) {size words : Nat}
    (hle : words ≤ size) : ∃ h', ((h.retireTlab id).installTlab id start size).bump id words = (some start, h') ∧
      h'.space = h.space ∧ (h'.tlabs.get id).start = start ∧ (h'.tlabs.get id).stop = start + size * wordBytes ∧
      (h'.tlabs.get id).usedWords = words ∧ (h'.tlabs.get id).refills = (h.tlabs.get id).refills + 1 ∧
      ∀ other, other ≠ id → h'.tlabs.get other = h.tlabs.get other := by
  have hretired (other : TlabId) : (h.retireTlab id).tlabs.get other =
      if other = id then ((h.tlabs.get id).retire h.memory).2.2 else h.tlabs.get other := TlabRegistry.get_set hid _ other
  have hid' : id < (h.retireTlab id).tlabs.buffers.size := Nat.lt_of_lt_of_le hid (h.writes_retireTlab id).buffers
  have hrefills : ((h.tlabs.get id).retire h.memory).2.2.refills = (h.tlabs.get id).refills := by
    unfold Tlab.retire
    split <;> rfl
  obtain ⟨h', hbump, hspace, hget, hothers⟩ := bump_install hid' start hle
  refine ⟨h', hbump, hspace, by rw [hget]; rfl, by rw [hget]; rfl, ?_, ?_, fun other hne => ?_⟩
  · rw [hget]
    exact (congrArg (· / wordBytes) (Nat.add_sub_cancel_left start _)).trans (Nat.mul_div_cancel _ (by decide))
  · rw [hget, hretired, if_pos rfl, ← hrefills]
    rfl
  · rw [hothers other hne, hretired, if_neg hne]

/-- What a request of mutator `m` for `w` words does to the buffers of heap `h`: nothing, unless one grants the words. -/
def Serves (h : Heap) (m : Mutator) (w most : Nat) (r : EStateM.Result Fault Heap (Except HeapError Address)) : Prop :=
  (finalState r).tlabs = h.tlabs ∨ ∃ a h', r = .ok (.ok a) h' ∧ (h.Bumps m w a h' ∨ h.Refills m w most a h')

/-- The heap that decides on a request of mutator `i`, which is `m`: where there is no room for the words, it is the one
that a cycle leaves. -/
def Decides (h : Heap) (i : MutatorId) (m : Mutator) (w : Nat) (h₁ : Heap) : Prop :=
  h₁ = h ∨ (refillOrCarve m w).run h = .ok none h ∧ h₁ = finalState ((collectForAllocation (some i)).run h)

/-- **Buffers are of the sizes that were asked for**, up to `most` words, and mutators keep theirs for as long as more than
the smallest part is left. -/
structure Bounded (most : Nat) (h : Heap) : Prop where
  external : ∀ {minWords requestedWords id h'}, minWords ≤ h.maxTlabWords →
    (newTlab minWords requestedWords).run h = .ok (.ok id) h' → h'.Fits minWords most (h'.tlabs.get id)
  mutator : ∀ {i m}, h.mutator i = .ok m → ∀ words, (finalState ((allocateFor i words).run h)).tlabs = h.tlabs ∨
    ∃ w h₁, h.adjust words = .ok w ∧ h.Decides i m w h₁ ∧ h₁.Serves m w most ((allocateFor i words).run h)

/-- Answers with the words found, and goes on where there are none. -/
def orElse (attempt : HeapM (Option α)) (last : HeapM (Except HeapError α)) : HeapM (Except HeapError α) := do
  match ← attempt with
  | some a => return .ok a
  | none => last

theorem attemptTwice_eq (id : Option MutatorId) (attempt : HeapM (Option α)) (refusal : HeapM HeapError) :
    attemptTwice id attempt refusal = orElse attempt (do
      collectForAllocation id
      orElse attempt (do return .error (← refusal))) := rfl

theorem exists_installNew (words : Nat) (start : Address) (h : Heap) : ∃ id h', (installNew words start).run h = .ok id h' ∧
    h'.space = h.space ∧ h'.tlabs.get id = Tlab.empty.install start words :=
  ⟨_, h.withTlab start words, rfl, rfl, (get_withTlab _ _ _).trans (if_pos rfl)⟩

/-- What claims words claims them in a heap of the same sizes. -/
theorem claimOrCollect_eq_ok {words : Nat} {use : Address → HeapM α} {a : α} (hu : ∀ a, Leads KeepsSizes (use a))
    (hrun : (claimOrCollect words use).run h = .ok (.ok a) h') :
    ∃ h₁, h.KeepsSizes h₁ ∧ (claim words use).run h₁ = .ok (some a) h' := by
  unfold claimOrCollect at hrun
  rw [run_bind_of_ok (EStateM.run_get h)] at hrun
  split at hrun
  · cases hrun
  obtain ⟨x, h₁, hfirst, hrun⟩ := run_bind_eq_ok hrun
  cases x with
  | some b =>
    cases hrun
    exact ⟨h, Std.Refl.refl h, hfirst⟩
  | none =>
  have hclaim := keepsSizes_across.claim words hu h
  obtain ⟨_, h₂, hcycle, hrun⟩ := run_bind_eq_ok hrun
  obtain ⟨x, h₃, hsecond, hrun⟩ := run_bind_eq_ok hrun
  cases x with
  | some b =>
    cases hrun
    refine ⟨h₂, IsTrans.trans _ h₁ _ ?_ ?_, hsecond⟩
    · rwa [hfirst] at hclaim
    · have hkeeps := keepsSizes_across.collectForAllocation none h₁
      rwa [hcycle] at hkeeps
  | none =>
    obtain ⟨e, h₄, -, hrun⟩ := run_bind_eq_ok hrun
    cases hrun

/-- What is known of a mutator also after a cycle. -/
structure Knows (h : Heap) (m : Mutator) : Prop where
  tlab : m.tlab < h.tlabs.buffers.size
  words : m.tlabWords ≤ h.largestTlab
  waste : m.refillWasteLimit = m.tlabWords / tlabRefillWasteFraction

theorem SameSizes.knows (a : h.SameSizes h') {m : Mutator} (hk : h.Knows m) : h'.Knows m :=
  ⟨Nat.lt_of_lt_of_le hk.tlab a.buffers, a.largestTlab ▸ hk.words, hk.waste⟩

namespace Measured

theorem carve_cases (hm : h.Measured) (words : Nat) : (carve words).run h = .ok none h ∨
    ∃ k s, (carve words).run h = .ok (some (h.space.address k)) { h with space := s } ∧
      k + h.space.granulesFor words ≤ h.space.granules ∧ h.space.SameGrid s ∧ s.Contained := by
  unfold carve
  rw [run_bind_of_ok (EStateM.run_get h)]
  rcases hm.contained.allocate_spec words with hnone | ⟨k, s, hsome, hend, hgrid, hs⟩
  · rw [hnone]
    exact .inl rfl
  · rw [hsome]
    exact .inr ⟨k, s, rfl, hend, hgrid, hs⟩

/-- **A refill takes a buffer of the right size and grants the words from it.** -/
theorem refillOrCarve_cases (hm : h.Measured) {m : Mutator} (hk : h.Knows m) (w : Nat) :
    (finalState ((refillOrCarve m w).run h)).tlabs = h.tlabs ∨
      ∃ a h', (refillOrCarve m w).run h = .ok (some a) h' ∧ h.Refills m w h.largestTlab a h' := by
  have hcarved : (finalState ((carve w).run h)).tlabs = h.tlabs := by
    rcases hm.carve_cases w with hrun | ⟨k, s, hrun, -⟩ <;> rw [hrun] <;> rfl
  unfold refillOrCarve
  rw [run_bind_of_ok (EStateM.run_get h)]
  by_cases hrefill : w ≤ m.tlabWords ∧ (h.tlabs.get m.tlab).freeWords ≤ m.refillWasteLimit
  case neg =>
    rw [if_neg hrefill]
    exact .inl hcarved
  rw [if_pos hrefill, run_bind_of_ok (EStateM.run_get h)]
  cases hsize : h.tlabSizeFor w m.tlabWords with
  | error f => exact .inl rfl
  | ok size =>
  have hg := hm.contained.granule_pos
  obtain ⟨n, hn, rfl, hleast, hmost⟩ := tlabSizeFor_spec hm.largest_dvd hsize
  rw [run_bind_of_ok (run_lift_ok _ _)]
  rcases hm.carve_cases (n * h.space.granuleWords) with hrun | ⟨k, s, hrun, hend, hgrid, hs⟩
  · rw [run_bind_of_ok hrun]
    exact .inl hcarved
  right
  rw [h.space.granulesFor_mul hg hn] at hend
  obtain ⟨h', hbump, hspace, hstart, hstop, hused, hrefills, hothers⟩ :=
    @exists_refilled { h with space := s } _ hk.tlab (h.space.address k) _ _ hleast
  have hgrid' : h.space.SameGrid h'.space := hspace ▸ hgrid
  have hregular : h'.space.Regular := hspace ▸ hs.toRegular
  rw [run_bind_of_ok hrun]
  refine ⟨h.space.address k, h', by simp only [EStateM.run_modifyGet, hbump], ?_⟩
  constructor
  case desired => exact hrefill.1
  case waste => exact hk.waste ▸ hrefill.2
  case fits =>
    refine fits_of_range hregular hn (by rwa [hgrid'.granules]) (hstart.trans (hgrid'.address k).symm) ?_ ?_ ?_
    · rw [hstop, hgrid'.address, hgrid'.2]
    · rwa [hgrid'.2]
    · rwa [hgrid'.2]
  case start => exact hstart
  case granted => exact hused
  case refills => exact hrefills
  case others => exact hothers

/-- An attempt decides on the request where there is room. -/
theorem orElse_cases (hm : h.Measured) {m : Mutator} (hk : h.Knows m) (w : Nat) (last : HeapM (Except HeapError Address)) :
    ((refillOrCarve m w).run h = .ok none h ∧ (orElse (refillOrCarve m w) last).run h = last.run h) ∨
      h.Serves m w h.largestTlab ((orElse (refillOrCarve m w) last).run h) := by
  have hcases := hm.refillOrCarve_cases hk w
  cases hrun : (refillOrCarve m w).run h with
  | error e k =>
    rw [orElse, EStateM.run_bind, hrun]
    rw [hrun] at hcases
    rcases hcases with hsame | ⟨a, h', hok, -⟩
    · exact .inr (.inl hsame)
    · cases hok
  | ok x k =>
  rw [orElse, run_bind_of_ok hrun]
  cases x with
  | none =>
    obtain rfl := refillOrCarve_none hk.tlab hrun
    exact .inl ⟨rfl, rfl⟩
  | some a =>
    rw [hrun] at hcases
    rcases hcases with hsame | ⟨_, _, hok, hrefills⟩
    · exact .inr (.inl hsame)
    · cases hok
      exact .inr (.inr ⟨a, k, rfl, .inr hrefills⟩)

theorem exists_serves (hm : h.Measured) {m : Mutator} (hk : h.Knows m) (i : MutatorId) (w : Nat) (e : HeapError) :
    ∃ h₁, h.Decides i m w h₁ ∧
      h₁.Serves m w h.largestTlab ((attemptTwice (some i) (refillOrCarve m w) (pure e)).run h) := by
  rw [attemptTwice_eq]
  rcases hm.orElse_cases hk w _ with ⟨hnone, hrun⟩ | hserves
  case inr => exact ⟨h, .inl rfl, hserves⟩
  rw [hrun]
  have hkeeps := keepsSizes_across.collectForAllocation (some i) h hm
  refine ⟨_, .inr ⟨hnone, rfl⟩, ?_⟩
  cases hcycle : (collectForAllocation (some i)).run h with
  | error f h₁ =>
    rw [EStateM.run_bind, hcycle]
    exact .inl rfl
  | ok _ h₁ =>
  rw [hcycle] at hkeeps
  change h.SameSizes h₁ at hkeeps
  rw [run_bind_of_ok hcycle, finalState]
  rcases hkeeps.measured.orElse_cases (hkeeps.knows hk) w _ with ⟨-, hrun₁⟩ | hserves
  · exact .inl (by rw [hrun₁]; rfl)
  · rwa [← hkeeps.largestTlab]

/-- **A mutator's request leaves the buffers alone or is granted from one of the right size.** -/
theorem allocateFor_cases (hm : h.Measured) (ho : h.Orderly) {i : MutatorId} {m : Mutator} (hmut : h.mutator i = .ok m)
    (words : Nat) : (finalState ((allocateFor i words).run h)).tlabs = h.tlabs ∨ ∃ w h₁, h.adjust words = .ok w ∧
      h.Decides i m w h₁ ∧ h₁.Serves m w h.largestTlab ((allocateFor i words).run h) := by
  have hmem := (mutator_eq_ok hmut).1
  have hk : h.Knows m := ⟨ho.owned m hmem, (hm.mutators m hmem).1, (hm.mutators m hmem).2⟩
  rw [allocateFor_eq, run_bind_of_ok (EStateM.run_get h), hmut, run_bind_of_ok (run_lift_ok _ _),
    run_bind_of_ok (EStateM.run_get h)]
  cases hfit : h.space.canFit words with
  | false => exact .inl rfl
  | true =>
  have hadjust : h.adjust words = .ok (h.space.granulesFor words * h.space.granuleWords) :=
    hm.contained.adjust_eq (of_decide_eq_true hfit)
  generalize h.space.granulesFor words * h.space.granuleWords = w at hadjust
  simp only [Bool.not_true, Bool.false_eq_true, if_false]
  rw [run_bind_of_ok (EStateM.run_get h), hadjust, run_bind_of_ok (run_lift_ok _ _), EStateM.run_bind, EStateM.run_modifyGet]
  right
  cases hbump : (h.tlabs.get m.tlab).allocate w with
  | some x =>
    obtain ⟨a, t⟩ := x
    have hrun : h.bump m.tlab w = (some a, { h with tlabs := h.tlabs.set m.tlab t }) := by rw [bump, hbump]
    rw [hrun]
    exact ⟨w, h, rfl, .inl rfl, .inr ⟨a, _, rfl, .inl ⟨t, hbump, rfl⟩⟩⟩
  | none =>
  have hrun : h.bump m.tlab w = (none, h) := by rw [bump, hbump]
  rw [hrun]
  obtain ⟨h₁, hdecides, hserves⟩ := hm.exists_serves hk i w (.outOfMemory w)
  exact ⟨w, h₁, rfl, hdecides, hserves⟩

/-- **A buffer of an external thread is of the size that was asked for.** -/
theorem newTlab_fits (hm : h.Measured) {minWords requestedWords : Nat} {id : TlabId}
    (hrun : (newTlab minWords requestedWords).run h = .ok (.ok id) h') :
    h'.Fits minWords h.largestTlab (h'.tlabs.get id) := by
  rw [newTlab_eq, run_bind_of_ok (EStateM.run_get h)] at hrun
  cases hsize : h.tlabSizeFor minWords requestedWords with
  | error f => rw [hsize] at hrun; cases hrun
  | ok size =>
  rw [hsize, run_bind_of_ok (run_lift_ok _ _)] at hrun
  obtain ⟨n, hn, rfl, hleast, hmost⟩ := tlabSizeFor_spec hm.largest_dvd hsize
  obtain ⟨h₁, hkeeps, hclaim⟩ := claimOrCollect_eq_ok (keepsSizes_across.installNew _) hrun
  obtain ⟨hgrid₁, -, -, hm₁⟩ := hkeeps hm
  unfold claim at hclaim
  rcases hm₁.carve_cases (n * h.space.granuleWords) with hcarve | ⟨k, s, hcarve, hend, hgrid, hs⟩
  · rw [run_bind_of_ok hcarve] at hclaim
    cases hclaim
  obtain ⟨id', h₂, hinstall, hspace, hget⟩ :=
    exists_installNew (n * h.space.granuleWords) (h₁.space.address k) { h₁ with space := s }
  rw [run_bind_of_ok hcarve, run_bind_of_ok hinstall] at hclaim
  cases hclaim
  obtain rfl : s = h'.space := hspace.symm
  have hwords : h'.space.granuleWords = h.space.granuleWords := (hgrid₁.trans hgrid).2
  rw [← hgrid.granules, ← hgrid.granulesFor, ← hwords, h'.space.granulesFor_mul hs.granule_pos hn] at hend
  rw [← hwords] at hleast hmost
  refine fits_of_range hs.toRegular hn hend ?_ ?_ hleast hmost
  · rw [hget, hgrid.address]
    rfl
  · rw [hget, hgrid.address, hwords]
    rfl

theorem bounded (hm : h.Measured) (ho : h.Orderly) : h.Bounded h.largestTlab := ⟨fun _ hrun => hm.newTlab_fits hrun, hm.allocateFor_cases ho⟩

end Measured

/-! ## New heaps -/

/-- The heap after requests, however each of them ends. -/
def after (h : Heap) (rs : List Request) : Heap := (Request.serveAll rs ⟨h, false⟩).2.heap

section New

variable {settings : Settings} {base : Address} {granted hook : Bool} {available : Nat → Bool}

theorem New.measured (hnew : New settings base h) : h.Measured := by
  refine ⟨hnew.tiled.contained, hnew.framed.max_tlab_dvd, fun m hm => ?_⟩
  rw [hnew.mutators] at hm
  cases hm

/-- A new heap makes a buffer of one granule, whatever the settings allow. -/
theorem New.exists_newTlab (hnew : New settings base h) : ∃ id h', (newTlab 0 0).run h = .ok (.ok id) h' := by
  have hg := hnew.tiled.granule_pos
  have hpos := hnew.granules_pos
  have hsize : h.tlabSizeFor 0 0 = .ok (h.space.granulesFor 0 * h.space.granuleWords) := by
    rw [tlabSizeFor_of_le (Nat.zero_le _), Nat.zero_min, Nat.max_self]
    exact hnew.tiled.adjust_eq (Nat.zero_le _)
  have hfit : h.space.granulesFor 0 * h.space.granuleWords ≤ h.space.region.wordSize := by
    rw [hnew.tiled.wordSize_eq]
    exact Nat.mul_le_mul_right _ (hnew.tiled.granulesFor_le hpos (Nat.zero_le _))
  generalize h.space.granulesFor 0 * h.space.granuleWords = size at hsize hfit
  obtain ⟨s, halloc, -⟩ := hnew.tiled.allocate_low hpos hfit
  have hcarve : (carve size).run h = .ok (some (h.space.address 0)) { h with space := s } := by
    unfold carve
    rw [run_bind_of_ok (EStateM.run_get h), halloc]
    rfl
  obtain ⟨id, h', hinstall, -⟩ := exists_installNew size (h.space.address 0) { h with space := s }
  have hclaim : (claim size (installNew size)).run h = .ok (some id) h' := by
    unfold claim
    rw [run_bind_of_ok hcarve, run_bind_of_ok hinstall]
    rfl
  refine ⟨id, h', ?_⟩
  rw [newTlab_eq, run_bind_of_ok (EStateM.run_get h), hsize, run_bind_of_ok (run_lift_ok _ _), claimOrCollect,
    run_bind_of_ok (EStateM.run_get h), show h.space.canFit size = true from decide_eq_true hfit, attemptTwice_eq]
  simp only [Bool.not_true, Bool.false_eq_true, if_false]
  rw [orElse, run_bind_of_ok hclaim]
  rfl

/-- **In every run, buffers are of the sizes that the settings allow**, unless these allow no word: the largest buffer has
no words then, and one of a granule is made all the same. -/
theorem create_bounded_iff (run : create settings base granted hook available = .ok h) (page : pageBytes ∣ base)
    (base_ne : base ≠ 0) (high : h.high < addressLimit) :
    (∀ rs, (h.after rs).Bounded (h.after rs).largestTlab) ∧
    ((∀ rs, (h.after rs).Bounded (h.after rs).maxTlabWords) ↔
      wordBytes ≤ max settings.maxTlabSize settings.minTlabSize) := by
  have hnew := create_spec run page base_ne high
  have hm := hnew.measured
  have hbounded (rs : List Request) : (h.after rs).Bounded (h.after rs).largestTlab := by
    have horderly := (Request.serveAll_leads keepsOrder_across rs h).2 (create_orderly run)
    exact ((Request.serveAll_leads keepsSizes_across rs h).2 hm).measured.bounded horderly
  refine ⟨hbounded, fun hall => ?_, fun hword rs => ?_⟩
  · refine Nat.le_of_not_lt fun hless => ?_
    have hzero := create_maxTlabWords_eq_zero run hnew hless
    obtain ⟨id, h', hrun⟩ := hnew.exists_newTlab
    have hfits := (hall []).external (Nat.zero_le _) hrun
    exact absurd (Nat.lt_of_lt_of_le hfits.pos hfits.most) (by rw [after, Request.serveAll, hzero]; exact Nat.lt_irrefl 0)
  · have hsizes := (Request.serveAll_leads keepsSizes_across rs h).2 hm
    have hlargest : (h.after rs).largestTlab = (h.after rs).maxTlabWords := by
      rw [after, hsizes.largestTlab, hsizes.largest, create_largestTlab run hnew hword]
    rw [← hlargest]
    exact hbounded rs

end New

/-- Settings that are accepted and allow buffers of one byte. -/
def wordless : Settings :=
  { initialHeapSize := 0, maxHeapSize := 4096, minTlabSize := 1, maxTlabSize := 1, tlabSize := 1, granuleWords := 2 }

/-- A heap whose buffers are all larger than its largest buffer. -/
theorem exists_unbounded : ∃ h, create wordless 4096 true false = .ok h ∧
    (∀ rs, (h.after rs).Bounded (h.after rs).largestTlab) ∧ ¬∀ rs, (h.after rs).Bounded (h.after rs).maxTlabWords := by
  have hrun : (match create wordless 4096 true false with
      | .ok h => decide (h.high < addressLimit)
      | .error _ => false) = true := by decide +kernel
  split at hrun
  · next h hcreate =>
    obtain ⟨hbounded, hiff⟩ := create_bounded_iff hcreate (by decide) (by decide) (of_decide_eq_true hrun)
    refine ⟨h, hcreate, hbounded, ?_⟩
    rw [hiff]
    decide
  · cases hrun

end Heap
end MarkSweep
