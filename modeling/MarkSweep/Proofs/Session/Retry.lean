import Mathlib.Logic.Relation
import MarkSweep.Proofs.Heap.BufferSizes
import MarkSweep.Proofs.Session.Steps
/-!
# Allocation in a session

A request for any number of words is answered by one try, and, where that finds nothing, one cycle and one more try
(`Answered`).  What is granted belongs to nobody else (`Exclusive`).  That is so in every run of a program on a heap whose
largest buffer has words; where it has none, a mutator may be stopped instead (`create_answers_iff`).
-/
namespace MarkSweep
namespace Session

/-- **The words `a ≤ x < a + w` belong to nobody else**: neither a free chunk nor an object that is left nor the tail of
a buffer has one of them. -/
structure Exclusive (s : Session) (h' : Heap) (a : Address) (w : Nat) : Prop where
  aligned : s.heap.space.granuleBytes ∣ a
  inside : s.heap.space.region.start ≤ a ∧ a + w * wordBytes ≤ s.heap.space.region.stop
  chunks : ∀ c ∈ h'.space.chunks, Chunk.Apart ⟨a, w⟩ c
  objects : ∀ o ∈ (s.after h').objects, s.Clear o ⟨a, a + w * wordBytes⟩
  buffers : ∀ id b, (h'.tlabs.get id).top ≤ b → b < (h'.tlabs.get id).stop → b < a ∨ a + w * wordBytes ≤ b

/-- A request for `words` words comes to an end, and is answered as it should be. -/
def Answered (s : Session) (request : HeapM (Except HeapError Address)) (id : Option MutatorId) (words : Nat)
    (ready : Nat → Prop) : Prop :=
  ∃ r h', request.run s.heap = .ok r h' ∧ s.heap.Answers id words ready r h' ∧
    ∀ a w, r = .ok a → s.heap.adjust words = .ok w → s.Exclusive h' a w

variable {s s' : Session} {h₁ h' : Heap} {ts ts₁ ts' : List Tile} {id : Option MutatorId} {cause : Cause}

/-- A tile that is granted is nobody else's. -/
theorem Inv.exclusive (hi : s.Inv ts) (hp : s.heap.Passes ts id cause h₁ ts₁) (hs₁ : h₁.Sound ts₁) (hset₁ : Settled ts₁)
    (hs' : h'.Sound ts') (hc : h₁.Carries ts₁ h' ts') {t : Tile} (ht : t ∈ ts') (hfree : ¬t.IsFree)
    (htail : ∀ id, t.kind ≠ .tail id) (hap : Apart ts₁ t.first t.count) :
    s.Exclusive h' (s.heap.space.address t.first) (t.count * s.heap.space.granuleWords) := by
  have hg := hp.frame.grid.trans hc.frame.grid
  have htiled := hs'.mapped.tiled
  have hregular := hi.sound.mapped.tiled.toRegular
  have hstop : s.heap.space.address t.first + t.count * s.heap.space.granuleWords * wordBytes = s.heap.space.address t.stop :=
    s.heap.space.address_add_words t.first t.count
  constructor
  case aligned => exact hregular.granuleBytes_dvd_address _
  case inside =>
    rw [hstop, hregular.stop_eq]
    exact ⟨s.heap.space.start_le_address _, hregular.address_le.2 (hg.granules ▸ htiled.stop_le ht)⟩
  case chunks =>
    intro c hc
    rw [Space.chunks, htiled.list.chunks] at hc
    obtain ⟨u, hu, rfl⟩ := List.mem_map.1 hc
    obtain ⟨hu, hufree⟩ := mem_freeTiles.1 hu
    have hchunk := htiled.apart_chunk ht hu fun he => hfree (he ▸ hufree)
    rwa [hg.chunk t] at hchunk
  case objects =>
    intro o ho
    have hsame : (s.after h').objects = (s.after h₁).objects := by
      simp only [after, left, hc.collections]
    have hclear := ((hi.pass hp hs₁ hset₁).objects o (hsame ▸ ho)).clear_of_apart hs₁.mapped.tiled.toRegular hap
    have hextent : (s.after h₁).extent o.words = s.extent o.words := by
      rw [extent, extent, after, hp.frame.grid.granulesFor, hp.frame.grid.granuleBytes]
    rw [hstop]
    unfold Clear at hclear ⊢
    rw [hextent] at hclear
    simpa only [after, hp.frame.grid.address, Tile.stop] using hclear
  case buffers =>
    intro id b htop hb
    rcases hs'.mapped.buffers.fits id with ⟨-, hempty, -⟩ | ⟨-, i, j, hij, -, hi', hj, htile⟩
    · rw [hempty] at htop
      exact absurd hb (Nat.not_lt_of_le htop)
    rw [hi', hg.address] at htop
    rw [hj, hg.address] at hb
    rw [hstop]
    have hlt : i < j := hregular.address_lt.1 (Nat.lt_of_le_of_lt htop hb)
    have hu := (htile i (j - i)).2 ⟨hlt, rfl, rfl⟩
    rcases htiled.tiling.apart ht hu fun he => htail id (by rw [he]) with hap | hap
    · exact .inr (Nat.le_trans (hregular.address_le.2 hap) htop)
    · rw [Tile.stop, Nat.add_sub_cancel' hij] at hap
      exact .inl (Nat.lt_of_lt_of_le hb (hregular.address_le.2 hap))

theorem Inv.answered_allocate (hi : s.Inv ts) (words : Nat) :
    s.Answered (Heap.allocate words) none words s.heap.HasRoom := by
  obtain ⟨h₁, ts₁, hp, hs₁, hset₁, ⟨e, hrun, hanswers⟩ | ⟨h', ts', k, hrun, -, hle, hpl, -, hanswers⟩⟩ :=
    Heap.allocate_spec hi.sound hi.settled hi.closed hi.roots (hi.countable words)
  · refine ⟨_, h₁, hrun, hanswers, ?_⟩
    intro a w ha
    cases ha
  · refine ⟨_, h', hrun, hanswers, ?_⟩
    intro a w ha hw
    rw [Heap.adjust, hi.sound.mapped.tiled.adjust_eq hle] at hw
    cases ha
    cases hw
    exact hi.exclusive hp hs₁ hset₁ hpl.sound hpl.carries hpl.mem (by simp [Tile.IsFree]) (by simp) hpl.apart

/-- The request of mutator `i` is stopped: its words would have to come from a buffer that is larger than the largest. -/
def Stopped (s : Session) (i : MutatorId) (words : Nat) : Prop :=
  ∃ w h', (Heap.allocateFor i words).run s.heap = .error (.aboveLargestTlab w) h'

theorem Inv.answered_allocateFor (hi : s.Inv ts) (words : Nat) {i : MutatorId} {m : Mutator}
    (hm : s.heap.mutator i = .ok m) : s.Answered (Heap.allocateFor i words) (some i) words (s.heap.HasRoomFor m) ∨
      s.heap.maxTlabWords = 0 ∧ s.Stopped i words := by
  obtain ⟨h₁, ts₁, hp, hs₁, hset₁,
      ⟨e, hrun, hanswers⟩ | ⟨h', pre, k, post, hrun, -, hle, hgr, hanswers⟩ | ⟨hstops, hzero⟩⟩ :=
    Heap.allocateFor_spec hi.sound hi.settled hi.closed hi.roots hm (hi.countable _) (hi.countable words)
  · refine .inl ⟨_, h₁, hrun, hanswers, ?_⟩
    intro a w ha
    cases ha
  · refine .inl ⟨_, h', hrun, hanswers, ?_⟩
    intro a w ha hw
    rw [Heap.adjust, hi.sound.mapped.tiled.adjust_eq hle] at hw
    cases ha
    cases hw
    have hmem : (⟨.raw, k, s.heap.space.granulesFor words⟩ : Tile) ∈
        pre ++ ⟨.raw, k, s.heap.space.granulesFor words⟩ :: post := by simp
    exact hi.exclusive hp hs₁ hset₁ hgr.sound hgr.carries hmem (by simp [Tile.IsFree]) (by simp) hgr.apart
  · exact .inr ⟨hzero, _, h₁, hstops⟩

/-! ## The largest buffer over a run -/

section Across

variable {R : Heap → Heap → Prop} [Std.Refl R] [IsTrans Heap R] {α : Type} {h h' : Heap}

theorem across_of_run (hR : Heap.AcrossRequests R) (r : Request) {x : HeapM α} {f : α → Answer}
    (hop : r.op = do return f (← x)) {a : α} (run : x.run h = .ok a h') : R h h' := by
  have hleads := r.leads hR h
  rw [hop, run_bind_of_ok run] at hleads
  exact hleads

/-- **What holds across each request holds across each step of a session.** -/
theorem Step.across (hR : Heap.AcrossRequests R) (hn : s.Step s') : R s.heap s'.heap := by
  have hwrite (h : Heap) (memory : Memory) : R h { h with memory } := hR.writes ⟨Nat.le_refl _, rfl, rfl⟩
  cases hn with
  | allocate run => exact across_of_run hR (.allocate _) rfl run
  | allocateRefused run => exact across_of_run hR (.allocate _) rfl run
  | newTlab run => exact across_of_run hR (.newTlab _ _) rfl run
  | newTlabRefused run => exact across_of_run hR (.newTlab _ _) rfl run
  | allocateIn _ run => exact across_of_run hR (.allocateIn _ _) rfl run
  | allocateInRefused _ run => exact across_of_run hR (.allocateIn _ _) rfl run
  | @dropTlab id _ => exact hR.toAcrossAllocations.dropTlab s.heap id
  | newMutator run => exact across_of_run hR .newMutator rfl run
  | allocateFor _ run => exact IsTrans.trans _ _ _ (across_of_run hR (.allocateFor _ _) rfl run) (hwrite _ _)
  | allocateForRefused _ run => exact across_of_run hR (.allocateFor _ _) rfl run
  | dropMutator _ run => exact across_of_run hR (.dropMutator _) (f := fun _ => .done) rfl run
  | collect _ run => exact across_of_run hR (.collect _ _) rfl run
  | collectFull run => exact across_of_run hR .collectFull rfl run
  | iterate _ run => exact across_of_run hR (.iterate _) rfl run
  | format | store | poke => exact hwrite _ _
  | reroot | permit => exact hR.writes ⟨Nat.le_refl _, rfl, rfl⟩
  | @hold i slots => exact hR.updateRoots s.heap i fun _ => slots

theorem across (hR : Heap.AcrossRequests R) (hs : Relation.ReflTransGen Step s s') : R s.heap s'.heap := by
  induction hs with
  | refl => exact Std.Refl.refl _
  | tail _ next ih => exact IsTrans.trans _ _ _ ih (next.across hR)

end Across

/-! ## Which heaps answer -/

section New

variable {settings : Settings} {base : Address} {granted hook : Bool} {available : Nat → Bool} {h : Heap}

/-- Where the largest buffer has no words, the first request of the first mutator is stopped. -/
theorem exists_stopped_of_zero (hnew : Heap.New settings base h)
    (hmin : h.settings.minTlabSize / wordBytes ≤ h.space.region.wordSize) (hzero : h.maxTlabWords = 0) :
    ∃ s, Relation.ReflTransGen Step (start h) s ∧ ∃ i m, s.heap.mutator i = .ok m ∧ s.Stopped i s.heap.space.granuleWords := by
  obtain ⟨i, h₁, hrun⟩ := Heap.exists_newMutator hnew.sound hmin
  obtain ⟨hs₁, hcar, -, -, -, -, -, m, hms, hmid, -⟩ := Heap.newMutator_spec hnew.sound hrun
  obtain ⟨m', hmut⟩ := Heap.mutator_of_mem (h := h₁) (m := m) (by simp [hms])
  rw [hmid] at hmut
  have hempty : (h₁.tlabs.get m'.tlab).freeWords = 0 := by
    rcases hs₁.mapped.tail_cases m'.tlab with ⟨hfree, -⟩ | ⟨pre, k, n, post, hts, -⟩
    · exact hfree
    · have htail : (⟨.tail m'.tlab, k, n⟩ : Tile) ∈ [(⟨.free, 0, h.space.granules⟩ : Tile)] := by simp [hts]
      cases List.mem_singleton.1 htail
  have hstops := Heap.allocateFor_stops hs₁ hmut hempty (hcar.frame.max_tlab.trans hzero)
  exact ⟨(start h).after h₁, .single (.newMutator hrun), i, m', hmut, _, _, hstops⟩

/-- **Which heaps answer every request**, whatever the program did before and for any number of words: an external thread is
answered always, and a mutator as well on the heaps whose settings allow a buffer of a word.  On the others, and on these
only, a mutator may be stopped instead. -/
theorem create_answers_iff (run : Heap.create settings base granted hook available = .ok h) (page : pageBytes ∣ base)
    (base_ne : base ≠ 0) (high : h.high < addressLimit) (small : h.space.region.wordSize < 2 ^ 32) :
    (∀ s, Relation.ReflTransGen Step (start h) s → ∀ words,
      s.Answered (Heap.allocate words) none words s.heap.HasRoom ∧
      ∀ i m, s.heap.mutator i = .ok m →
        s.Answered (Heap.allocateFor i words) (some i) words (s.heap.HasRoomFor m) ∨ s.Stopped i words) ∧
    ((∀ s, Relation.ReflTransGen Step (start h) s → ∀ words i m, s.heap.mutator i = .ok m →
      s.Answered (Heap.allocateFor i words) (some i) words (s.heap.HasRoomFor m)) ↔
      wordBytes ≤ max settings.maxTlabSize settings.minTlabSize) := by
  have hnew := Heap.create_spec run page base_ne high
  have hinv {s : Session} (hs : Relation.ReflTransGen Step (start h) s) : ∃ ts, s.Inv ts := by
    have hreached : Reached s := by
      induction hs with
      | refl => exact .create run page base_ne high small
      | tail _ next ih => exact .step ih next
    exact hreached.inv
  refine ⟨fun s hs words => ?_, fun hall => ?_, fun hword s hs words i m hm => ?_⟩
  · obtain ⟨ts, hi⟩ := hinv hs
    exact ⟨hi.answered_allocate words, fun i m hm => (hi.answered_allocateFor words hm).imp_right And.right⟩
  · refine Nat.le_of_not_lt fun hless => ?_
    obtain ⟨-, hminSize, -⟩ := Heap.create_buffers run
    have hmin : h.settings.minTlabSize / wordBytes ≤ h.space.region.wordSize := by
      rw [hminSize, Nat.div_eq_of_lt (Nat.lt_of_le_of_lt (Nat.le_max_right _ _) hless)]
      exact Nat.zero_le _
    obtain ⟨s, hs, i, m, hm, w, h', hstops⟩ :=
      exists_stopped_of_zero hnew hmin (Heap.create_maxTlabWords_eq_zero run hnew hless)
    obtain ⟨r, h'', hrun, -⟩ := hall s hs _ i m hm
    cases hstops.symm.trans hrun
  · obtain ⟨ts, hi⟩ := hinv hs
    refine (hi.answered_allocateFor words hm).resolve_right fun hstopped => ?_
    have hsame : s.heap.maxTlabWords = h.maxTlabWords := (across Heap.keepsSizes_across hs hnew.measured).largest
    exact Nat.ne_of_gt (Heap.create_maxTlabWords_pos run hnew hword) (hsame ▸ hstopped.1)

end New

/-- Whether a program with a mutator can take the whole heap of a page, so that the next request needs a cycle. -/
def runsOut (h : Heap) : Bool :=
  decide (h.high < addressLimit ∧ h.space.region.wordSize < 2 ^ 32) &&
  match Heap.newMutator.run h with
  | .ok i h₁ =>
    match (Heap.allocate 512).run h₁ with
    | .ok (.ok _) h₂ => h₂.space.chunks.isEmpty && match h₂.mutator i with
      | .ok m => (h₂.tlabs.get m.tlab).freeWords == 0
      | .error _ => false
    | _ => false
  | .error _ _ => false

/-- A session without a free word, where both kinds of threads need a cycle for a word; and a heap whose buffers have no
words, where a mutator is stopped. -/
theorem exists_answered_and_stopped :
    (∃ h, Heap.create onePage 4096 true false = .ok h ∧ ∃ s, Relation.ReflTransGen Step (start h) s ∧
      ¬s.heap.HasRoom 64 ∧ s.Answered (Heap.allocate 1) none 1 s.heap.HasRoom ∧
      ∃ i m, s.heap.mutator i = .ok m ∧ (s.heap.tlabs.get m.tlab).freeWords = 0 ∧
        s.Answered (Heap.allocateFor i 1) (some i) 1 (s.heap.HasRoomFor m)) ∧
    ∃ h, Heap.create Heap.wordless 4096 true false = .ok h ∧ ∃ s, Relation.ReflTransGen Step (start h) s ∧
      ∃ words i m, s.heap.mutator i = .ok m ∧ s.Stopped i words ∧
        ¬s.Answered (Heap.allocateFor i words) (some i) words (s.heap.HasRoomFor m) := by
  constructor
  · have hrun : (match Heap.create onePage 4096 true false with | .ok h => runsOut h | .error _ => false) = true := by
      decide +kernel
    cases hc : Heap.create onePage 4096 true false with
    | error e => rw [hc] at hrun; cases hrun
    | ok h =>
    rw [hc] at hrun
    simp only [runsOut, Bool.and_eq_true, decide_eq_true_eq] at hrun
    obtain ⟨⟨hhigh, hsmall⟩, hrun⟩ := hrun
    split at hrun
    case h_2 => cases hrun
    next i h₁ hnew =>
    split at hrun
    case h_2 => cases hrun
    next a h₂ hall =>
    simp only [Bool.and_eq_true] at hrun
    obtain ⟨hempty, hrun⟩ := hrun
    split at hrun
    case h_2 => cases hrun
    next m hm =>
    have hsteps : Relation.ReflTransGen Step (start h) _ :=
      .tail (.single (.newMutator hnew)) (.allocate (s := (start h).after h₁) hall)
    obtain ⟨hanswers, hiff⟩ := create_answers_iff hc (by decide) (by decide) hhigh hsmall
    refine ⟨h, rfl, _, hsteps, ?_, (hanswers _ hsteps 1).1, i, m, hm, beq_iff_eq.1 hrun,
      hiff.2 (by decide) _ hsteps 1 i m hm⟩
    rintro ⟨c, hmem, -⟩
    have hmem : c ∈ h₂.space.chunks := hmem
    rw [List.isEmpty_iff.1 hempty] at hmem
    cases hmem
  · have hrun : (match Heap.create Heap.wordless 4096 true false with
        | .ok h => decide (h.high < addressLimit ∧ h.space.region.wordSize < 2 ^ 32)
        | .error _ => false) = true := by decide +kernel
    split at hrun
    case h_2 => cases hrun
    next h hcreate =>
    obtain ⟨hhigh, hsmall⟩ := of_decide_eq_true hrun
    obtain ⟨hanswers, hiff⟩ := create_answers_iff hcreate (by decide) (by decide) hhigh hsmall
    have hnot := mt hiff.1 (by decide)
    simp only [not_forall] at hnot
    obtain ⟨s, hs, words, i, m, hm, hunanswered⟩ := hnot
    exact ⟨h, hcreate, s, hs, words, i, m, hm, ((hanswers s hs words).2 i m hm).resolve_left hunanswered, hunanswered⟩

end Session
end MarkSweep
