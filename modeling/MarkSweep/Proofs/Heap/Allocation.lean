import MarkSweep.Heap.Allocation
import MarkSweep.Proofs.Heap.Retry
/-!
# Allocation grants words that nobody uses

An allocation may run one cycle first (`Passes`).  From then on the objects stay as they are (`Carries`), and what is
granted, or handed to a buffer, lies apart from all of them (`Apart`).  Each specification says beside that how the
request is answered (`Answers`), and that the heap the cycle left answers it in the same way.
-/
namespace MarkSweep

/-- The granules from `k` up to `k + n` touch no object. -/
def Apart (ts : List Tile) (k n : Nat) : Prop := ∀ t ∈ ts, t.kind = .object → t.stop ≤ k ∨ k + n ≤ t.first

theorem Keeps.apart {s s' : Space} {m m' : Memory} {ts ts' : List Tile} (h : Keeps s m ts m' ts') (hs : s'.Tiled ts')
    {u : Tile} (hu : u ∈ ts') (hk : u.kind ≠ .object) : Apart ts u.first u.count := fun t ht htk =>
  hs.tiling.apart (h t ht htk).1 hu fun he => hk (he ▸ htk)

theorem Keeps.of_sameGrid {s s' : Space} {m m' : Memory} {ts ts' : List Tile} (h : Keeps s m ts m' ts')
    (hg : s.SameGrid s') : Keeps s' m ts m' ts' := by
  intro t ht hk
  rw [hg.wordAt, hg.wordAt]
  exact h t ht hk

namespace Heap

theorem SameFrame.adjust {h h' : Heap} (hf : h.SameFrame h') (words : Nat) : h'.adjust words = h.adjust words := by
  rw [Heap.adjust, Heap.adjust, Space.adjust, Space.adjust, hf.grid.2]

theorem SameFrame.tlabSizeFor {h h' : Heap} (hf : h.SameFrame h') (minWords requestedWords : Nat) :
    h'.tlabSizeFor minWords requestedWords = h.tlabSizeFor minWords requestedWords := by
  unfold Heap.tlabSizeFor
  rw [hf.max_tlab, hf.adjust]

/-! ## Steps without a cycle -/

/-- The objects stay as they are, and no collection is counted. -/
structure Carries (h : Heap) (ts : List Tile) (h' : Heap) (ts' : List Tile) : Prop where
  keeps : Keeps h.space h.memory ts h'.memory ts'
  frame : h.SameFrame h'
  collections : h'.collections = h.collections
  lastCycle : h'.lastCycle = h.lastCycle

theorem Carries.refl (h : Heap) (ts : List Tile) : Carries h ts h ts := ⟨.refl _ _ _, .refl _, rfl, rfl⟩

theorem Carries.trans {h h' h'' : Heap} {ts ts' ts'' : List Tile} (a : Carries h ts h' ts') (b : Carries h' ts' h'' ts'') :
    Carries h ts h'' ts'' :=
  ⟨a.keeps.trans (b.keeps.of_sameGrid a.frame.grid.symm), a.frame.trans b.frame, b.collections.trans a.collections,
    b.lastCycle.trans a.lastCycle⟩

/-- The buffers and the mutators are the same ones. -/
structure SameOwners (h h' : Heap) : Prop where
  registered : h'.tlabs.registered = h.tlabs.registered
  mutators : h'.mutators = h.mutators
  issued : h'.nextMutator = h.nextMutator
  safepoint : h'.safepoint = h.safepoint

theorem SameOwners.trans {h h' h'' : Heap} (a : h.SameOwners h') (b : h'.SameOwners h'') : h.SameOwners h'' :=
  ⟨b.registered.trans a.registered, b.mutators.trans a.mutators, b.issued.trans a.issued, b.safepoint.trans a.safepoint⟩

theorem Sound.step {h h' : Heap} {ts ts' : List Tile} (hs : h.Sound ts)
    (hm : Mapped h'.space h'.memory h'.tlabs ts') (hf : h.SameFrame h') (ho : h.SameOwners h') : h'.Sound ts' :=
  ⟨hm, hf.framed hs.framed, ⟨by rw [ho.mutators]; exact hs.mutators.nodup,
      by rw [ho.mutators, ho.issued]; exact hs.mutators.issued⟩,
    by rw [ho.mutators, ho.safepoint]; exact hs.idle, by rw [ho.mutators]; exact hs.owners,
    by rw [ho.mutators, ho.registered]; exact hs.owned, by rw [ho.mutators, hf.grid.2, hf.largestTlab]; exact hs.sizes⟩

/-- Buffer `id` was put over words that touch no object of `ts`, or it was not installed. -/
def Installs (h : Heap) (ts : List Tile) (h' : Heap) : Prop :=
  ∀ id, (h.tlabs.get id).refills < (h'.tlabs.get id).refills →
    ∃ k n, (h'.tlabs.get id).start = h.space.address k ∧ (h'.tlabs.get id).stop = h.space.address (k + n) ∧ Apart ts k n

/-- **What an operation that grants words leaves**: granules `k` up to `k + n` are granted, and the objects and owners
are as before. -/
structure Grants (h : Heap) (ts : List Tile) (h' : Heap) (pre : List Tile) (k n : Nat) (post : List Tile) : Prop where
  sound : h'.Sound (pre ++ ⟨.raw, k, n⟩ :: post)
  carries : Carries h ts h' (pre ++ ⟨.raw, k, n⟩ :: post)
  settled : Settled (pre ++ post)
  owners : h.SameOwners h'
  installs : Installs h ts h'

theorem Grants.apart {h h' : Heap} {ts pre post : List Tile} {k n : Nat} (g : Grants h ts h' pre k n post) :
    Apart ts k n :=
  g.carries.keeps.apart g.sound.mapped.tiled (u := ⟨.raw, k, n⟩) (by simp) (by simp)

theorem Grants.quiet {h h' : Heap} {ts pre post : List Tile} {k n : Nat} (g : Grants h ts h' pre k n post) : h.Quiet h' :=
  ⟨g.owners.safepoint, g.carries.collections⟩

theorem settled_of_raw {ts pre post : List Tile} (hset : Settled ts) (h : ∀ u ∈ pre ++ post, u.kind = .raw → u ∈ ts) :
    Settled (pre ++ post) := fun u hu hk => hset u (h u hu hk) hk

/-- **Carving grants free words**, or changes nothing where there is no room. -/
theorem carve_spec {h : Heap} {ts : List Tile} (hs : h.Sound ts) (hset : Settled ts) {words : Nat}
    (hwords : h.space.Countable words) :
    ((carve words).run h = .ok none h ∧ ¬h.HasRoom (h.space.granulesFor words * h.space.granuleWords)) ∨
    ∃ h' pre k post, (carve words).run h = .ok (some (h.space.address k)) h' ∧
      Grants h ts h' pre k (h.space.granulesFor words) post ∧ h'.tlabs = h.tlabs ∧ h'.memory = h.memory ∧
      h.HasRoom (h.space.granulesFor words * h.space.granuleWords) := by
  rcases hs.mapped.allocate hwords with ⟨hrun, -⟩ | ⟨space, pre, k, post, hrun, hg, -, hm, hk, hraw⟩
  · left
    refine ⟨?_, mt (hasRoom_iff hs.mapped.tiled hrun).1 (not_not.2 rfl)⟩
    unfold carve
    rw [run_bind_of_ok (EStateM.run_get h), hrun]
    rfl
  · right
    have hframe : h.SameFrame { h with space } := ⟨hg, rfl, rfl, rfl, rfl, rfl, rfl, rfl, rfl⟩
    have howners : h.SameOwners { h with space } := ⟨rfl, rfl, rfl, rfl⟩
    refine ⟨{ h with space }, pre, k, post, ?_, ⟨hs.step hm hframe howners, ⟨hk, hframe, rfl, rfl⟩,
      settled_of_raw hset hraw, howners, fun id hlt => absurd hlt (Nat.lt_irrefl _)⟩, rfl, rfl,
      (hasRoom_iff hs.mapped.tiled hrun).2 (Option.some_ne_none _)⟩
    unfold carve
    rw [run_bind_of_ok (EStateM.run_get h), hrun]
    rfl

/-- **Granted words become an object** once they start with a header that rounds up to them. -/
theorem Sound.found {h : Heap} {pre post : List Tile} {k n : Nat} {m : Memory} (hs : h.Sound (pre ++ ⟨.raw, k, n⟩ :: post))
    (hbut : h.memory.SameBut m (h.space.wordAt k) (h.space.wordAt (k + n))) (hhead : h.space.Headed m ⟨.object, k, n⟩) :
    ({ h with memory := m } : Heap).Sound (pre ++ ⟨.object, k, n⟩ :: post) ∧
      Carries h (pre ++ ⟨.raw, k, n⟩ :: post) { h with memory := m } (pre ++ ⟨.object, k, n⟩ :: post) := by
  obtain ⟨hm, hk⟩ := hs.mapped.found hbut hhead
  have hframe : h.SameFrame { h with memory := m } := ⟨.refl _, rfl, rfl, rfl, rfl, rfl, rfl, rfl, rfl⟩
  exact ⟨hs.step hm hframe ⟨rfl, rfl, rfl, rfl⟩, hk, hframe, rfl, rfl⟩

/-! ## A cycle on the way -/

/-- The heap before the last part of an operation that asks for a cycle: either the cycle ran from `h` to `h₁` and
completed, or nothing happened that matters. -/
def Passes (h : Heap) (ts : List Tile) (id : Option MutatorId) (cause : Cause) (h₁ : Heap) (ts₁ : List Tile) : Prop :=
  (h.Untouched h₁ ∧ ts₁ = ts) ∨
  ∃ stats, (collectNow id cause).run h = .ok (.ok stats) h₁ ∧ Collected h ts h₁ ts₁ stats

theorem Collected.settled {h h' : Heap} {ts ts' : List Tile} {stats : CycleStats} (c : Collected h ts h' ts' stats) :
    Settled ts' := by
  intro t ht hk
  rcases c.clean t ht with h | h <;> rw [hk] at h <;> cases h

theorem Passes.frame {h h₁ : Heap} {ts ts₁ : List Tile} {id : Option MutatorId} {cause : Cause}
    (p : Passes h ts id cause h₁ ts₁) : h.SameFrame h₁ := by
  rcases p with ⟨hun, -⟩ | ⟨stats, -, hcol⟩
  · exact hun.frame
  · exact hcol.frame

theorem Passes.mutators {h h₁ : Heap} {ts ts₁ : List Tile} {id : Option MutatorId} {cause : Cause}
    (p : Passes h ts id cause h₁ ts₁) : h₁.mutators = h.mutators ∧ h₁.nextMutator = h.nextMutator := by
  rcases p with ⟨hun, -⟩ | ⟨stats, -, hcol⟩
  · exact ⟨hun.mutators, hun.issued⟩
  · exact ⟨hcol.mutators, hcol.issued⟩

theorem Passes.registered {h h₁ : Heap} {ts ts₁ : List Tile} {id : Option MutatorId} {cause : Cause}
    (p : Passes h ts id cause h₁ ts₁) : h₁.tlabs.registered = h.tlabs.registered ∧
      ∀ i, (h₁.tlabs.get i).refills = (h.tlabs.get i).refills := by
  rcases p with ⟨hun, -⟩ | ⟨stats, -, hcol⟩
  · exact ⟨by rw [hun.tlabs], fun i => by rw [hun.tlabs]⟩
  · exact ⟨hcol.registered, hcol.refills⟩

theorem collectForAllocation_spec {h : Heap} {ts : List Tile} {P : Address → Prop} (hs : h.Sound ts) (hset : Settled ts)
    (hc : Closed h.space h.memory h.encoding ts P) (hr : h.Rooted P) (id : Option MutatorId)
    (hid : ∀ i, id = some i → ∃ m ∈ h.mutators, m.id = i) :
    ∃ h₁ ts₁ c, (collectForAllocation id).run h = .ok () h₁ ∧ Passes h ts id .allocationFailure h₁ ts₁ ∧ h₁.Sound ts₁ ∧
      Settled ts₁ ∧ h.Cycles id c h₁ := by
  unfold collectForAllocation
  rcases collectNow_spec hs hset hc hr id hid .allocationFailure with
    ⟨h₁, ts₁, stats, hrun, hcol, hs₁⟩ | ⟨-, h₁, e, hrun, hun, hs₁⟩
  · have honce := collectNow_epoch hs hset hc hr hid hrun
    refine ⟨h₁, ts₁, .ok stats, by rw [run_bind_of_ok hrun]; rfl, .inr ⟨stats, hrun, hcol⟩, hs₁, hcol.settled, hrun, honce,
      fun _ _ => hcol.collections, ?_⟩
    intro e he
    cases he
  · have honce := collectNow_epoch hs hset hc hr hid hrun
    refine ⟨h₁, ts, .error e, by rw [run_bind_of_ok hrun]; rfl, .inl ⟨hun, rfl⟩, hs₁, hset, hrun, honce, ?_,
      fun _ _ => hun⟩
    intro stats he
    cases he

/-- Where there is room, no cycle is asked for. -/
theorem carveOrCollect_of_carve {h h' : Heap} {words : Nat} {a : Address} (hle : words ≤ h.space.region.wordSize)
    (hcarve : (carve words).run h = .ok (some a) h') : (carveOrCollect words).run h = .ok (.ok a) h' := by
  unfold carveOrCollect
  rw [run_bind_of_ok (EStateM.run_get h), if_neg (mt h.space.refuses_iff.1 (not_not.2 hle)), run_bind_of_ok hcarve]
  rfl

section Retry

variable {h h₁ h' : Heap} {words : Nat} (hle : words ≤ h.space.region.wordSize) (hnone : (carve words).run h = .ok none h)
  (hcol : (collectForAllocation none).run h = .ok () h₁)
include hle hnone hcol

/-- The second attempt is the last one. -/
theorem carveOrCollect_of_retry {a : Address} (hcarve : (carve words).run h₁ = .ok (some a) h') :
    (carveOrCollect words).run h = .ok (.ok a) h' := by
  unfold carveOrCollect
  rw [run_bind_of_ok (EStateM.run_get h), if_neg (mt h.space.refuses_iff.1 (not_not.2 hle)), run_bind_of_ok hnone]
  simp only
  rw [run_bind_of_ok hcol, run_bind_of_ok hcarve]
  rfl

theorem carveOrCollect_of_refused {n : Nat} (hcarve : (carve words).run h₁ = .ok none h₁) (hadj : h₁.adjust words = .ok n) :
    (carveOrCollect words).run h = .ok (.error (.outOfMemory n)) h₁ := by
  unfold carveOrCollect
  rw [run_bind_of_ok (EStateM.run_get h), if_neg (mt h.space.refuses_iff.1 (not_not.2 hle)), run_bind_of_ok hnone]
  simp only
  rw [run_bind_of_ok hcol, run_bind_of_ok hcarve]
  simp only
  rw [run_bind_of_ok (EStateM.run_get h₁), hadj]
  rfl

end Retry

/-- **A chunk is carved, after a cycle where that is needed**, or the request is refused.  The heap that a cycle leaves
serves the request in the same way. -/
theorem carveOrCollect_spec {h : Heap} {ts : List Tile} {P : Address → Prop} (hs : h.Sound ts) (hset : Settled ts)
    (hc : Closed h.space h.memory h.encoding ts P) (hr : h.Rooted P) {words : Nat} (hwords : h.space.Countable words) :
    ∃ h₁ ts₁, Passes h ts none .allocationFailure h₁ ts₁ ∧ h₁.Sound ts₁ ∧ Settled ts₁ ∧
      ((∃ e, (carveOrCollect words).run h = .ok (.error e) h₁ ∧ h.Answers none words h.HasRoom (.error e) h₁) ∨
      ∃ h' pre k post, (carveOrCollect words).run h = .ok (.ok (h.space.address k)) h' ∧
        (carveOrCollect words).run h₁ = .ok (.ok (h.space.address k)) h' ∧ words ≤ h.space.region.wordSize ∧
        Grants h₁ ts₁ h' pre k (h.space.granulesFor words) post ∧ h'.tlabs = h₁.tlabs ∧ h'.memory = h₁.memory ∧
        h.Answers none words h.HasRoom (.ok (h.space.address k)) h') := by
  by_cases hle : words ≤ h.space.region.wordSize
  case neg =>
    refine ⟨h, ts, .inl ⟨.refl h, rfl⟩, hs, hset, .inl ⟨.outOfMemory words, ?_, answers_of_huge hle⟩⟩
    unfold carveOrCollect
    rw [run_bind_of_ok (EStateM.run_get h), if_pos (h.space.refuses_iff.2 hle)]
    rfl
  have hadj : h.adjust words = .ok (h.space.granulesFor words * h.space.granuleWords) := hs.mapped.tiled.adjust_eq hle
  rcases carve_spec hs hset hwords with ⟨hcarve, hnone⟩ | ⟨h', pre, k, post, hcarve, hgr, ht, hmem, hroom⟩
  case inr =>
    have hrun := carveOrCollect_of_carve hle hcarve
    exact ⟨h, ts, .inl ⟨.refl h, rfl⟩, hs, hset, .inr ⟨h', pre, k, post, hrun, hrun, hle, hgr, ht, hmem,
      answers_of_ready hle hadj hroom hgr.quiet⟩⟩
  obtain ⟨h₁, ts₁, c, hcol, hpass, hs₁, hset₁, hcycle⟩ :=
    collectForAllocation_spec hs hset hc hr none (fun _ hi => by cases hi)
  have hg := hpass.frame.grid
  refine ⟨h₁, ts₁, hpass, hs₁, hset₁, ?_⟩
  rcases carve_spec hs₁ hset₁ (hg.countable hwords) with
    ⟨hcarve', hnone'⟩ | ⟨h', pre, k, post, hcarve', hgr, ht, hmem, hroom⟩
  · left
    rw [hg.granulesFor, hg.2] at hnone'
    refine ⟨.outOfMemory (h.space.granulesFor words * h.space.granuleWords),
      carveOrCollect_of_refused hle hcarve hcol hcarve' ((hpass.frame.adjust words).trans hadj),
      answers_of_retries hle hadj hnone (hcycle.refused hnone')⟩
  · right
    rw [hg.granulesFor] at hgr hroom
    rw [hg.2] at hroom
    rw [hg.address] at hcarve'
    exact ⟨h', pre, k, post, carveOrCollect_of_retry hle hcarve hcol hcarve', carveOrCollect_of_carve (hg.1 ▸ hle) hcarve',
      hle, hgr, ht, hmem, answers_of_retries hle hadj hnone (hcycle.served hroom hgr.quiet)⟩

/-- **What an allocation leaves**: an object in the granules from `k` up to `k + n`, which touched none before. -/
structure Places (h : Heap) (ts : List Tile) (h' : Heap) (ts' : List Tile) (k n : Nat) : Prop where
  sound : h'.Sound ts'
  carries : Carries h ts h' ts'
  settled : Settled ts'
  mem : (⟨.object, k, n⟩ : Tile) ∈ ts'
  apart : Apart ts k n
  owners : h.SameOwners h'
  installs : Installs h ts h'

theorem Grants.found {h h' : Heap} {ts pre post : List Tile} {k n : Nat} {m : Memory} (g : Grants h ts h' pre k n post)
    (hbut : h'.memory.SameBut m (h'.space.wordAt k) (h'.space.wordAt (k + n))) (hhead : h'.space.Headed m ⟨.object, k, n⟩) :
    Places h ts { h' with memory := m } (pre ++ ⟨.object, k, n⟩ :: post) k n := by
  obtain ⟨hs, hcar⟩ := g.sound.found hbut hhead
  exact ⟨hs, g.carries.trans hcar, g.settled.insert (by simp), by simp, g.apart, g.owners.trans ⟨rfl, rfl, rfl, rfl⟩,
    g.installs⟩

theorem Grants.format {h h' : Heap} {ts pre post : List Tile} {k n : Nat} (g : Grants h ts h' pre k n post) (words : Nat)
    (hwords : h.space.granulesFor words = n) (refs flags : Nat) :
    Places h ts { h' with memory := Object.write h'.memory (h.space.address k) words refs flags }
      (pre ++ ⟨.object, k, n⟩ :: post) k n := by
  have hg := g.carries.frame.grid
  rw [← hg.granulesFor] at hwords
  obtain ⟨hbut, hhead⟩ := g.sound.mapped.headed_write (by decide) (by decide) hwords refs flags
  rw [← hg.address]
  exact g.found hbut hhead

/-- A chunk that is carved for an external thread becomes a filler. -/
theorem allocate_of_carveOrCollect {h h' : Heap} {words n : Nat} {a : Address}
    (hrun : (carveOrCollect words).run h = .ok (.ok a) h') (hadj : h'.adjust words = .ok n) :
    (allocate words).run h = .ok (.ok a) (h'.fill a n) := by
  unfold allocate
  rw [run_bind_of_ok hrun]
  simp only
  rw [run_bind_of_ok (EStateM.run_get h'), hadj, run_bind_of_ok (run_lift_ok _ _), run_bind_of_ok (EStateM.run_modify _ _)]
  rfl

/-- **An allocation for an external thread** leaves a filler that rounds up to what was granted. -/
theorem allocate_spec {h : Heap} {ts : List Tile} {P : Address → Prop} (hs : h.Sound ts) (hset : Settled ts)
    (hc : Closed h.space h.memory h.encoding ts P) (hr : h.Rooted P) {words : Nat} (hwords : h.space.Countable words) :
    ∃ h₁ ts₁, Passes h ts none .allocationFailure h₁ ts₁ ∧ h₁.Sound ts₁ ∧ Settled ts₁ ∧
      ((∃ e, (allocate words).run h = .ok (.error e) h₁ ∧ h.Answers none words h.HasRoom (.error e) h₁) ∨
      ∃ h' ts' k, (allocate words).run h = .ok (.ok (h.space.address k)) h' ∧
        (allocate words).run h₁ = .ok (.ok (h.space.address k)) h' ∧ words ≤ h.space.region.wordSize ∧
        Places h₁ ts₁ h' ts' k (h.space.granulesFor words) ∧
        h'.memory = Object.fill h₁.memory (h.space.address k) (h.space.granulesFor words * h.space.granuleWords) ∧
        h.Answers none words h.HasRoom (.ok (h.space.address k)) h') := by
  obtain ⟨h₁, ts₁, hpass, hs₁, hset₁, ⟨e, hrun, hanswers⟩ | ⟨h', pre, k, post, hrun, hagain, hle, hgr, -, hmem, hanswers⟩⟩ :=
    carveOrCollect_spec hs hset hc hr hwords
  · refine ⟨h₁, ts₁, hpass, hs₁, hset₁, .inl ⟨e, ?_, hanswers⟩⟩
    unfold allocate
    rw [run_bind_of_ok hrun]
    rfl
  · have hg₁ := hpass.frame.grid
    have hg := hg₁.trans hgr.carries.frame.grid
    have hpos := h.space.granulesFor_pos words (by rw [← hg.2]; exact hgr.sound.mapped.tiled.granule_pos)
    have hadj : h'.adjust words = .ok (h.space.granulesFor words * h.space.granuleWords) := by
      rw [← hg.granulesFor, ← hg.2]
      exact hgr.sound.mapped.tiled.adjust_eq (by rw [hg.1]; exact hle)
    have hplace := hgr.format (h.space.granulesFor words * h.space.granuleWords)
      (by rw [hg₁.granulesFor]; exact h.space.granulesFor_mul (by rw [← hg.2]; exact hgr.sound.mapped.tiled.granule_pos) hpos)
      0 Header.fillerFlag
    rw [hg₁.address] at hplace
    exact ⟨h₁, ts₁, hpass, hs₁, hset₁, .inr ⟨_, _, k, allocate_of_carveOrCollect hrun hadj,
      allocate_of_carveOrCollect hagain hadj, hle, hplace, by rw [← hmem]; rfl, hanswers.quiet ⟨rfl, rfl⟩⟩⟩

/-! ## Buffers of external threads -/

section Sizes

variable {h : Heap} {minWords requestedWords words : Nat}

theorem tlabSizeFor_of_le (hle : minWords ≤ h.maxTlabWords) (requestedWords : Nat) :
    h.tlabSizeFor minWords requestedWords = h.adjust (max (min requestedWords h.maxTlabWords) minWords) := by
  unfold tlabSizeFor
  rw [if_neg (Nat.not_lt_of_le hle)]

theorem tlabSizeFor_of_lt (hlt : h.maxTlabWords < minWords) (requestedWords : Nat) :
    h.tlabSizeFor minWords requestedWords = .error (.aboveLargestTlab minWords) := by
  unfold tlabSizeFor
  rw [if_pos hlt]
  rfl

/-- A buffer is as large as the rounded request, and the largest one can hold what is asked for. -/
theorem tlabSizeFor_eq_ok (hsize : h.tlabSizeFor minWords requestedWords = .ok words) :
    0 < h.space.granuleWords ∧ minWords ≤ h.maxTlabWords ∧
      words = h.space.granulesFor (max (min requestedWords h.maxTlabWords) minWords) * h.space.granuleWords := by
  rcases Nat.lt_or_ge h.maxTlabWords minWords with hlt | hle
  · rw [tlabSizeFor_of_lt hlt] at hsize
    cases hsize
  · rw [tlabSizeFor_of_le hle] at hsize
    unfold adjust Space.adjust at hsize
    obtain ⟨hg, -, hwords⟩ := alignUp_eq_ok_iff.1 hsize
    exact ⟨hg, hle, hwords⟩

theorem le_tlabSizeFor (hsize : h.tlabSizeFor minWords requestedWords = .ok words) : minWords ≤ words := by
  obtain ⟨hg, -, rfl⟩ := tlabSizeFor_eq_ok hsize
  exact Nat.le_trans (Nat.le_max_right _ _) (h.space.words_le_granulesFor _ hg)

/-- The largest buffer is whole granules, and one at least. -/
theorem exists_largestTlab (hdvd : h.space.granuleWords ∣ h.maxTlabWords) :
    ∃ k, 0 < k ∧ h.largestTlab = k * h.space.granuleWords := by
  obtain ⟨k, hk⟩ := hdvd
  rw [Nat.mul_comm] at hk
  unfold largestTlab
  rcases Nat.eq_zero_or_pos k with rfl | hpos
  · rw [hk, Nat.zero_mul, Nat.zero_max]
    exact ⟨1, Nat.one_pos, (Nat.one_mul _).symm⟩
  · exact ⟨k, hpos, by rw [hk, Nat.max_eq_left (Nat.le_mul_of_pos_left _ hpos)]⟩

/-- **No rounding leads past the largest buffer**, which is whole granules itself. -/
theorem tlabSizeFor_spec (hdvd : h.space.granuleWords ∣ h.maxTlabWords)
    (hsize : h.tlabSizeFor minWords requestedWords = .ok words) :
    ∃ n, 0 < n ∧ words = n * h.space.granuleWords ∧ minWords ≤ words ∧ words ≤ h.largestTlab := by
  have hleast := le_tlabSizeFor hsize
  obtain ⟨hg, hmin, rfl⟩ := tlabSizeFor_eq_ok hsize
  refine ⟨_, h.space.granulesFor_pos _ hg, rfl, hleast, ?_⟩
  obtain ⟨k, hk, hlargest⟩ := exists_largestTlab hdvd
  have hrequest : max (min requestedWords h.maxTlabWords) minWords ≤ k * h.space.granuleWords := by
    rw [← hlargest]
    exact Nat.le_trans (Nat.max_le.2 ⟨Nat.min_le_right _ _, hmin⟩) (Nat.le_max_left _ _)
  have hround := h.space.granulesFor_mono hrequest
  rw [h.space.granulesFor_mul hg hk] at hround
  rw [hlargest]
  exact Nat.mul_le_mul_right _ hround

/-- Words of whole granules that some mutator desires, but no buffer can hold: then the largest one has none at all. -/
theorem Sound.maxTlabWords_eq_zero {ts : List Tile} (hs : h.Sound ts) {m : Mutator} (hm : m ∈ h.mutators)
    (hdesired : words ≤ m.tlabWords) (hlt : h.maxTlabWords < words) : h.maxTlabWords = 0 := by
  have hless : h.maxTlabWords < h.largestTlab :=
    Nat.lt_of_lt_of_le hlt (Nat.le_trans hdesired (hs.sizes m hm).2)
  unfold largestTlab at hless
  exact Nat.eq_zero_of_dvd_of_lt hs.framed.max_tlab_dvd (by omega)

end Sizes

theorem installs_of_install {h h' : Heap} {ts : List Tile} (id : TlabId) {k n : Nat} (ha : Apart ts k n)
    (hstart : (h'.tlabs.get id).start = h.space.address k) (hstop : (h'.tlabs.get id).stop = h.space.address (k + n))
    (hother : ∀ id', id' ≠ id → (h'.tlabs.get id').refills = (h.tlabs.get id').refills) : Installs h ts h' :=
  fun id' hlt => by
    by_cases he : id' = id
    · subst he
      exact ⟨k, n, hstart, hstop, ha⟩
    · rw [hother id' he] at hlt
      exact absurd hlt (Nat.lt_irrefl _)

/-- The heap once a new buffer has got words. -/
def withTlab (h : Heap) (start : Address) (words : Nat) : Heap :=
  ({ h with tlabs := h.tlabs.register.2 } : Heap).installTlab h.tlabs.register.1 start words

/-- A chunk that is carved for a buffer is installed in a new one. -/
theorem newTlab_of_carveOrCollect {h h' : Heap} {minWords requestedWords words : Nat} {start : Address}
    (hsize : h.tlabSizeFor minWords requestedWords = .ok words)
    (hrun : (carveOrCollect words).run h = .ok (.ok start) h') :
    (newTlab minWords requestedWords).run h = .ok (.ok h'.tlabs.register.1) (h'.withTlab start words) := by
  unfold newTlab
  rw [run_bind_of_ok (EStateM.run_get h), hsize, run_bind_of_ok (run_lift_ok _ _), run_bind_of_ok hrun]
  rfl

theorem get_withTlab {h : Heap} (id : TlabId) (start : Address) (words : Nat) : (h.withTlab start words).tlabs.get id =
    if id = h.tlabs.register.1 then Tlab.empty.install start words else h.tlabs.get id := by
  unfold withTlab installTlab
  rw [TlabRegistry.get_set h.tlabs.register_known, TlabRegistry.get_register_self]
  split
  · rfl
  · exact TlabRegistry.get_register ..

/-- A buffer is registered before it gets its words, which then are its tail. -/
theorem Sound.withTlab {h : Heap} {pre post : List Tile} {k c : Nat} (hs : h.Sound (pre ++ ⟨.raw, k, c⟩ :: post)) :
    (h.withTlab (h.space.address k) (c * h.space.granuleWords)).Sound (pre ++ ⟨.tail h.tlabs.register.1, k, c⟩ :: post) ∧
    Carries h (pre ++ ⟨.raw, k, c⟩ :: post) (h.withTlab (h.space.address k) (c * h.space.granuleWords))
      (pre ++ ⟨.tail h.tlabs.register.1, k, c⟩ :: post) ∧
    h.tlabs.register.1 ∉ h.tlabs.registered := by
  have hm := hs.mapped
  have hm' : Mapped h.space h.memory h.tlabs.register.2 (pre ++ ⟨.raw, k, c⟩ :: post) :=
    ⟨hm.tiled, hm.headed, hm.buffers.register, hm.countable⟩
  have hin : h.tlabs.register.1 ∈ h.tlabs.register.2.registered := List.mem_append_right _ (List.mem_singleton_self _)
  have hempty : (h.tlabs.register.2.get h.tlabs.register.1).isEmpty = true := by
    rw [TlabRegistry.get_register_self]
    rfl
  obtain ⟨hinstalled, hkeeps⟩ := hm'.install hs.framed.start_pos hin hempty
  have hframe : h.SameFrame (h.withTlab (h.space.address k) (c * h.space.granuleWords)) :=
    ⟨.refl _, rfl, rfl, rfl, rfl, rfl, rfl, rfl, rfl⟩
  refine ⟨⟨hinstalled, hframe.framed hs.framed, ⟨hs.mutators.nodup, hs.mutators.issued⟩, hs.idle, hs.owners,
    fun m hm => List.mem_append_left _ (hs.owned m hm), hs.sizes⟩, ⟨hkeeps, hframe, rfl, rfl⟩, fun hmem => ?_⟩
  exact Nat.lt_irrefl _ (hm.buffers.known _ hmem)

/-- **A new buffer** takes a chunk as its tail. -/
theorem newTlab_spec {h : Heap} {ts : List Tile} {P : Address → Prop} (hs : h.Sound ts) (hset : Settled ts)
    (hc : Closed h.space h.memory h.encoding ts P) (hr : h.Rooted P) {minWords requestedWords words : Nat}
    (hsize : h.tlabSizeFor minWords requestedWords = .ok words) (hcount : h.space.Countable words) :
    ∃ h₁ ts₁, Passes h ts none .allocationFailure h₁ ts₁ ∧ h₁.Sound ts₁ ∧ Settled ts₁ ∧
      ((∃ e, (newTlab minWords requestedWords).run h = .ok (.error e) h₁) ∨
      ∃ h' ts' id, (newTlab minWords requestedWords).run h = .ok (.ok id) h' ∧
        (newTlab minWords requestedWords).run h₁ = .ok (.ok id) h' ∧ h'.Sound ts' ∧ Settled ts' ∧
        Carries h₁ ts₁ h' ts' ∧ Installs h₁ ts₁ h' ∧ id ∉ h₁.tlabs.registered ∧
        h'.tlabs.registered = h₁.tlabs.registered ++ [id] ∧ h'.mutators = h₁.mutators ∧
        h'.nextMutator = h₁.nextMutator) := by
  obtain ⟨c, hcpos, rfl, -⟩ := tlabSizeFor_spec hs.framed.max_tlab_dvd hsize
  obtain ⟨h₁, ts₁, hpass, hs₁, hset₁, ⟨e, hrun, -⟩ | ⟨h', pre, k, post, hrun, hagain, hle, hgr, htlabs, hmem, -⟩⟩ :=
    carveOrCollect_spec hs hset hc hr hcount
  · refine ⟨h₁, ts₁, hpass, hs₁, hset₁, .inl ⟨e, ?_⟩⟩
    unfold newTlab
    rw [run_bind_of_ok (EStateM.run_get h), hsize, run_bind_of_ok (run_lift_ok _ _), run_bind_of_ok hrun]
    rfl
  have hg := hpass.frame.grid.trans hgr.carries.frame.grid
  rw [h.space.granulesFor_mul hs.mapped.tiled.granule_pos hcpos] at hgr
  obtain ⟨hs', hcar, hnew⟩ := hgr.sound.withTlab
  rw [hg.address, hg.2] at hs' hcar
  refine ⟨h₁, ts₁, hpass, hs₁, hset₁, .inr ⟨_, _, h'.tlabs.register.1, newTlab_of_carveOrCollect hsize hrun,
    newTlab_of_carveOrCollect ((hpass.frame.tlabSizeFor _ _).trans hsize) hagain, hs', hgr.settled.insert (by simp),
    hgr.carries.trans hcar, ?_, ?_, ?_, hgr.owners.mutators, hgr.owners.issued⟩⟩
  · refine installs_of_install h'.tlabs.register.1 hgr.apart ?_ ?_ ?_
    · rw [get_withTlab, if_pos rfl, hpass.frame.grid.address]
      rfl
    · rw [get_withTlab, if_pos rfl, hpass.frame.grid.address]
      exact h.space.address_add_words k c
    · intro id' hne
      rw [get_withTlab, if_neg hne, htlabs]
  · rw [← hgr.owners.registered]
    exact hnew
  · rw [← hgr.owners.registered]
    rfl

end Heap
end MarkSweep
