import MarkSweep.Proofs.Heap.Cycle
import MarkSweep.Proofs.Space.Evolution
/-!
# One try, one cycle, one more try

An allocation that finds no words asks for one cycle and tries once more; it is refused only where no chunk has room after
that.  `Answers` says so of a request and its answer, and `Cycles` of the cycle between the two tries.
-/
namespace MarkSweep
namespace Heap

/-- Some free chunk has `w` words. -/
def HasRoom (h : Heap) (w : Nat) : Prop := ∃ c ∈ h.space.chunks, w ≤ c.words

/-- The buffer of the mutator has `w` words left, or some free chunk has. -/
def HasRoomFor (h : Heap) (m : Mutator) (w : Nat) : Prop := w ≤ (h.tlabs.get m.tlab).freeWords ∨ h.HasRoom w

/-- The cycle of an allocation led from `h` to `h₁`, and `c` came of it.  The world was stopped once; a cycle that was
aborted changed nothing. -/
structure Cycles (h : Heap) (id : Option MutatorId) (c : Except HeapError CycleStats) (h₁ : Heap) : Prop where
  run : (collectNow id .allocationFailure).run h = .ok c h₁
  once : h₁.safepoint.epoch = h.safepoint.epoch + 1
  completed : ∀ stats, c = .ok stats → h₁.collections = h.collections + 1
  aborted : ∀ e, c = .error e → h.Untouched h₁

/-- The second try for `w` words, after the cycle that led to `h₁`. -/
structure Retries (h : Heap) (id : Option MutatorId) (w : Nat) (c : Except HeapError CycleStats) (h₁ : Heap)
    (r : Except HeapError Address) (h' : Heap) : Prop where
  cycle : h.Cycles id c h₁
  /-- No other cycle runs. -/
  safepoint : h'.safepoint = h₁.safepoint
  collections : h'.collections = h₁.collections
  served : (∃ a, r = .ok a) ↔ h₁.HasRoom w
  refused : ¬h₁.HasRoom w → r = .error (.outOfMemory w) ∧ h' = h₁

/-- Words are granted without a cycle where they are `ready`, and nowhere else. -/
structure Tries (h : Heap) (id : Option MutatorId) (w : Nat) (ready : Prop) (r : Except HeapError Address) (h' : Heap) :
    Prop where
  atOnce : ready ↔ (∃ a, r = .ok a) ∧ h'.safepoint = h.safepoint
  uncounted : ready → h'.collections = h.collections
  retry : ¬ready → ∃ c h₁, h.Retries id w c h₁ r h'

/-- **How a request for `words` words is answered.**  What is larger than the heap is refused at once. -/
structure Answers (h : Heap) (id : Option MutatorId) (words : Nat) (ready : Nat → Prop) (r : Except HeapError Address)
    (h' : Heap) : Prop where
  huge : h.space.region.wordSize < words → r = .error (.outOfMemory words) ∧ h' = h
  fits : words ≤ h.space.region.wordSize → ∃ w, h.adjust words = .ok w ∧ h.Tries id w (ready w) r h'

/-- No cycle ran. -/
structure Quiet (h h' : Heap) : Prop where
  safepoint : h'.safepoint = h.safepoint
  collections : h'.collections = h.collections

variable {h h' h'' h₁ : Heap} {ts : List Tile} {P : Address → Prop} {id : Option MutatorId} {w words : Nat} {a : Address}
  {ready : Nat → Prop} {r : Except HeapError Address} {c : Except HeapError CycleStats}

/-! ## Room -/

theorem HasRoom.mono {w' : Nat} (hroom : h.HasRoom w') (hle : w ≤ w') : h.HasRoom w := by
  obtain ⟨c, hc, hw⟩ := hroom
  exact ⟨c, hc, Nat.le_trans hle hw⟩

/-- **The free list gives words exactly where there is room.** -/
theorem hasRoom_iff (hs : h.space.Tiled ts) {found : Option Address} {space : Space}
    (hrun : h.space.allocate words = .ok (found, space)) :
    h.HasRoom (h.space.granulesFor words * h.space.granuleWords) ↔ found ≠ none := by
  obtain ⟨space', hfirst, -⟩ := hs.allocate_firstFit words
  rw [hfirst] at hrun
  cases hrun
  rw [Ne, Option.map_eq_none_iff, List.find?_eq_none]
  simp only [HasRoom, decide_eq_true_eq, not_forall, not_not, exists_prop]

/-! ## The cycle -/

/-- A collection stops the world once. -/
theorem collectNow_epoch (hs : h.Sound ts) (hset : Settled ts) (hc : Closed h.space h.memory h.encoding ts P)
    (hr : h.Rooted P) (hid : ∀ i, id = some i → ∃ m ∈ h.mutators, m.id = i) {cause : Cause}
    (hrun : (collectNow id cause).run h = .ok c h₁) : h₁.safepoint.epoch = h.safepoint.epoch + 1 := by
  obtain ⟨roots, s, r, hroots, -, hepoch, hstop⟩ :=
    stopTheWorld_spec (h := { h with cause }) hs.idle ⟨hs.mutators.nodup, hs.mutators.issued⟩
      (fun m hm => hr.loads hm) id hid
  -- the cycle leaves the safepoint alone, whether it is aborted or not
  have hcycle : ∃ c' h', (runCycle cause roots).run { h with cause, safepoint := s } = .ok c' h' ∧ h'.safepoint = s := by
    rcases Bool.eq_false_or_eq_true h.granted with hg | hg
    · obtain ⟨h', -, stats, hcycle, -, hsafe⟩ :=
        runCycle_spec (h := { h with cause, safepoint := s }) (P := P) hs.mapped hset
          (hs.framed.congr rfl rfl rfl rfl) hc hr hroots hg cause
      exact ⟨_, h', hcycle, hsafe⟩
    · exact ⟨_, _, runCycle_refused (h := { h with cause, safepoint := s }) hg cause roots, rfl⟩
  obtain ⟨c', h', hcycle, hsafe⟩ := hcycle
  unfold collectNow at hrun
  rw [run_bind_of_ok (EStateM.run_modify _ h), hstop, hcycle] at hrun
  cases hrun
  rw [hsafe]
  exact hepoch

/-! ## Answers -/

theorem answers_of_huge (hlt : ¬words ≤ h.space.region.wordSize) :
    h.Answers id words ready (.error (.outOfMemory words)) h :=
  ⟨fun _ => ⟨rfl, rfl⟩, fun hle => absurd hle hlt⟩

theorem answers_of_ready (hle : words ≤ h.space.region.wordSize) (hw : h.adjust words = .ok w) (hready : ready w)
    (hq : h.Quiet h') : h.Answers id words ready (.ok a) h' := by
  refine ⟨fun hlt => absurd hlt (Nat.not_lt_of_le hle), fun _ => ⟨w, hw, ?_, ?_, ?_⟩⟩
  · exact iff_of_true hready ⟨⟨a, rfl⟩, hq.safepoint⟩
  · exact fun _ => hq.collections
  · exact fun hno => absurd hready hno

theorem answers_of_retries (hle : words ≤ h.space.region.wordSize) (hw : h.adjust words = .ok w) (hno : ¬ready w)
    (hr : h.Retries id w c h₁ r h') : h.Answers id words ready r h' := by
  refine ⟨fun hlt => absurd hlt (Nat.not_lt_of_le hle), fun _ => ⟨w, hw, iff_of_false hno ?_, ?_, fun _ => ⟨c, h₁, hr⟩⟩⟩
  · -- the cycle left its mark on the safepoint
    rintro ⟨-, hsafe⟩
    have honce := hr.cycle.once
    rw [← hr.safepoint, hsafe] at honce
    omega
  · exact fun hready => absurd hready hno

theorem Cycles.served (hc : h.Cycles id c h₁) (hroom : h₁.HasRoom w) (hq : h₁.Quiet h') :
    h.Retries id w c h₁ (.ok a) h' :=
  ⟨hc, hq.safepoint, hq.collections, iff_of_true ⟨a, rfl⟩ hroom, fun hno => absurd hroom hno⟩

theorem Cycles.refused (hc : h.Cycles id c h₁) (hno : ¬h₁.HasRoom w) :
    h.Retries id w c h₁ (.error (.outOfMemory w)) h₁ :=
  ⟨hc, rfl, rfl, iff_of_false (by rintro ⟨a, ha⟩; cases ha) hno, fun _ => ⟨rfl, rfl⟩⟩

/-- What is done with granted words afterwards changes nothing of the answer. -/
theorem Answers.quiet (ha : h.Answers id words ready (.ok a) h') (hq : h'.Quiet h'') :
    h.Answers id words ready (.ok a) h'' := by
  refine ⟨fun hlt => ?_, fun hle => ?_⟩
  · cases (ha.huge hlt).1
  obtain ⟨w, hw, ht⟩ := ha.fits hle
  refine ⟨w, hw, by rw [hq.safepoint]; exact ht.atOnce, fun hready => hq.collections.trans (ht.uncounted hready), ?_⟩
  intro hno
  obtain ⟨c, h₁, hr⟩ := ht.retry hno
  refine ⟨c, h₁, hr.cycle, hq.safepoint.trans hr.safepoint, hq.collections.trans hr.collections, hr.served, fun hroom => ?_⟩
  cases (hr.refused hroom).1

end Heap
end MarkSweep
