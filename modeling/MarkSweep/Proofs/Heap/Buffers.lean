import Mathlib.Data.Set.Insert
import Mathlib.Logic.Function.Basic
import MarkSweep.Proofs.Heap.Tiles
/-!
# Buffers divide their ranges

A buffer in use divides its range: the words it granted come first, one grant after the other, and the rest is its tail.
`Used` are the registries that any use of their buffers makes, each with a ledger of what the buffers granted.  Memory is
no part of them: whatever it holds, a retirement writes to tails alone (`Used.partitioned`).
-/
namespace MarkSweep

/-- What one buffer granted. -/
structure Ledger where
  /-- The grants since the last installation, in order, each with its number of words. -/
  grants : List (Address × Nat)
  installs : Nat
  /-- The words of all grants, over the lifetime of the buffer. -/
  words : Nat

namespace Ledger

def empty : Ledger := ⟨[], 0, 0⟩

def install (l : Ledger) : Ledger := { l with grants := [], installs := l.installs + 1 }

def grant (l : Ledger) (a : Address) (words : Nat) : Ledger :=
  { l with grants := l.grants ++ [(a, words)], words := l.words + words }

end Ledger

/-- The grants lie side by side and tile the words from `start` to `top`. -/
def Adjacent (top : Address) : Address → List (Address × Nat) → Prop
  | start, [] => start = top
  | start, (a, words) :: rest => a = start ∧ Adjacent top (start + words * wordBytes) rest

namespace Adjacent

variable {top start : Nat} {grants : List (Address × Nat)}

theorem concat (words : Nat) : ∀ {start : Nat} {grants : List (Address × Nat)}, Adjacent top start grants →
    Adjacent (top + words * wordBytes) start (grants ++ [(top, words)])
  | _, [], h => by cases h; exact ⟨rfl, rfl⟩
  | _, _ :: _, ⟨ha, h⟩ => ⟨ha, h.concat words⟩

theorem le : ∀ {start : Nat} {grants : List (Address × Nat)}, Adjacent top start grants → start ≤ top
  | _, [], h => Nat.le_of_eq h
  | _, _ :: _, ⟨_, h⟩ => Nat.le_of_add_right_le h.le

theorem dvd : ∀ {start : Nat} {grants : List (Address × Nat)}, Adjacent top start grants → wordBytes ∣ start →
    wordBytes ∣ top
  | _, [], h, hs => h ▸ hs
  | _, _ :: _, ⟨_, h⟩, hs => h.dvd (Nat.dvd_add hs (Nat.dvd_mul_left _ _))

/-- Every grant lies between the ends. -/
theorem bounds : ∀ {start : Nat} {grants : List (Address × Nat)}, Adjacent top start grants → wordBytes ∣ start →
    ∀ p ∈ grants, wordBytes ∣ p.1 ∧ start ≤ p.1 ∧ p.1 + p.2 * wordBytes ≤ top
  | start, (a, words) :: _, ⟨ha, h⟩, hs, p, hp => by
    rcases List.mem_cons.1 hp with rfl | hp
    · exact ⟨ha ▸ hs, Nat.le_of_eq ha.symm, ha ▸ h.le⟩
    · obtain ⟨hdvd, hle, htop⟩ := h.bounds (Nat.dvd_add hs (Nat.dvd_mul_left _ _)) p hp
      exact ⟨hdvd, Nat.le_of_add_right_le hle, htop⟩

end Adjacent

/-! ## One buffer -/

namespace Tlab

variable {t t' : Tlab} {l : Ledger}

/-- Word number `i` is one that the buffer can still grant. -/
def InTail (t : Tlab) (i : Nat) : Prop := t.top / wordBytes ≤ i ∧ i < t.stop / wordBytes

theorem contains_iff {a : Address} : t.contains a = true ↔ t.start ≤ a ∧ a < t.stop := by
  simp [contains]

/-- A buffer is as the ledger has it. -/
structure Matches (t : Tlab) (l : Ledger) : Prop where
  refills : t.refills = l.installs
  words : t.allocatedWords = l.words
  empty : t.isEmpty = true → t.top = 0 ∧ t.stop = 0
  range : t.isEmpty = false → wordBytes ∣ t.start ∧ wordBytes ∣ t.stop ∧ t.top ≤ t.stop ∧ Adjacent t.top t.start l.grants

namespace Matches

theorem new : Tlab.empty.Matches .empty := ⟨rfl, rfl, fun _ => ⟨rfl, rfl⟩, fun h => by cases h⟩

theorem top_le (h : t.Matches l) : t.top ≤ t.stop := by
  cases hempty : t.isEmpty with
  | true => rw [(h.empty hempty).1]; exact Nat.zero_le _
  | false => exact (h.range hempty).2.2.1

theorem install (h : t.Matches l) {start words : Nat} (hne : start ≠ 0) (hdvd : wordBytes ∣ start) :
    (t.install start words).Matches l.install := by
  refine ⟨congrArg (· + 1) h.refills, h.words, fun hempty => absurd (eq_of_beq hempty) hne, fun _ => ?_⟩
  exact ⟨hdvd, Nat.dvd_add hdvd (Nat.dvd_mul_left _ _), Nat.le_add_right _ _, rfl⟩

/-- A grant is refused exactly where it would go past the end. -/
theorem allocate_eq_none_iff (h : t.Matches l) {words : Nat} :
    t.allocate words = none ↔ t.stop < t.top + words * wordBytes := by
  have hfree : t.freeWords < words ↔ t.stop < t.top + words * wordBytes :=
    (Nat.div_lt_iff_lt_mul (by decide)).trans (Nat.sub_lt_iff_lt_add' h.top_le)
  rw [Tlab.allocate, ← hfree]
  split
  · next hlt => exact iff_of_true rfl hlt
  · next hge => exact iff_of_false (by simp) hge

theorem allocate (h : t.Matches l) {words : Nat} {a : Address} (hrun : t.allocate words = some (a, t')) :
    t'.Matches (l.grant a words) ∧ t'.start = t.start ∧ t'.stop = t.stop := by
  have hfits : ¬t.stop < t.top + words * wordBytes := by
    rw [← h.allocate_eq_none_iff, hrun]
    simp
  unfold Tlab.allocate at hrun
  split at hrun
  · cases hrun
  cases hrun
  refine ⟨⟨h.refills, congrArg (· + words) h.words, fun hempty => ?_, fun hne => ?_⟩, rfl, rfl⟩
  · obtain ⟨-, hstop⟩ := h.empty hempty
    exact ⟨Nat.eq_zero_of_le_zero (hstop ▸ Nat.le_of_not_lt hfits), hstop⟩
  · obtain ⟨hstart, hstop, -, hgrants⟩ := h.range hne
    exact ⟨hstart, hstop, Nat.le_of_not_lt hfits, hgrants.concat words⟩

theorem emptied (h : t.Matches l) : t.emptied.Matches l := by
  unfold Tlab.emptied
  split
  · exact h
  · exact ⟨h.refills, h.words, fun _ => ⟨rfl, rfl⟩, fun hne => by cases hne⟩

theorem retire_eq (h : t.Matches l) (m : Memory) : t.retire m =
    (t.freeWords, if 0 < t.freeWords then Object.fill m t.top t.freeWords else m, t.emptied) := by
  unfold Tlab.retire Tlab.emptied
  split
  · next hempty =>
    obtain ⟨-, hstop⟩ := h.empty hempty
    have hzero : t.freeWords = 0 := by simp [freeWords, hstop]
    rw [hzero]
    rfl
  · rfl

/-- The tail is a part of the range. -/
theorem contains_tail (h : t.Matches l) {i : Nat} (hi : t.InTail i) : t.contains (i * wordBytes) = true := by
  obtain ⟨hlo, hhi⟩ := hi
  cases hempty : t.isEmpty with
  | true =>
    rw [(h.empty hempty).2] at hhi
    cases hhi
  | false =>
    obtain ⟨hstart, hstop, -, hgrants⟩ := h.range hempty
    obtain ⟨k, hk⟩ := hgrants.dvd hstart
    obtain ⟨n, hn⟩ := hstop
    have hle := hgrants.le
    rw [contains_iff]
    unfold wordBytes Address at *
    omega

/-- A granted word is one of the range before the tail. -/
theorem contains_grant (h : t.Matches l) (hne : t.isEmpty = false) {p : Address × Nat} (hp : p ∈ l.grants) {i : Nat}
    (hi : i < p.2) : t.contains ((p.1 / wordBytes + i) * wordBytes) = true ∧ ¬t.InTail (p.1 / wordBytes + i) := by
  obtain ⟨hstart, -, hle, hgrants⟩ := h.range hne
  obtain ⟨⟨k, hk⟩, hlo, hhi⟩ := hgrants.bounds hstart p hp
  rw [contains_iff]
  unfold InTail wordBytes Address at *
  omega

end Matches

end Tlab

/-! ## The registry -/

namespace TlabRegistry

/-- **The registries that any use of the buffers makes**, with the buffers that are registered and what each buffer
granted.  A buffer can be used without being registered.  A range is installed in an empty buffer, apart from the ranges
that the other buffers have by then. -/
inductive Used : TlabRegistry → Set TlabId → (TlabId → Ledger) → Prop
  | empty : Used .empty ∅ fun _ => .empty
  | register {r : TlabRegistry} {ids : Set TlabId} {l : TlabId → Ledger} (used : Used r ids l) :
      Used r.register.2 (insert r.register.1 ids) l
  | unregister {r : TlabRegistry} {ids : Set TlabId} {l : TlabId → Ledger} (used : Used r ids l) (id : TlabId) :
      Used (r.unregister id) (ids \ {id}) l
  | install {r : TlabRegistry} {ids : Set TlabId} {l : TlabId → Ledger} {id : TlabId} {start words : Nat}
      (used : Used r ids l) (known : id < r.buffers.size) (empty : (r.get id).isEmpty = true) (start_ne : start ≠ 0)
      (aligned : wordBytes ∣ start)
      (apart : ∀ id' ≠ id, ∀ a, start ≤ a → a < start + words * wordBytes → (r.get id').contains a = false) :
      Used (r.set id ((r.get id).install start words)) ids (Function.update l id (l id).install)
  | allocate {r : TlabRegistry} {ids : Set TlabId} {l : TlabId → Ledger} {id : TlabId} {words : Nat} {a : Address}
      {t : Tlab} (used : Used r ids l) (known : id < r.buffers.size) (run : (r.get id).allocate words = some (a, t)) :
      Used (r.set id t) ids (Function.update l id ((l id).grant a words))
  | retire {r : TlabRegistry} {ids : Set TlabId} {l : TlabId → Ledger} {id : TlabId} (used : Used r ids l)
      (known : id < r.buffers.size) (m : Memory) : Used (r.retire m id).2.2 ids l
  | retireAll {r : TlabRegistry} {ids : Set TlabId} {l : TlabId → Ledger} (used : Used r ids l) (m : Memory) :
      Used (r.retireAll m).2.2 ids l

/-- **What it is to retire the buffers `ids`**: they are empty, and the words of their tails, which are counted, are
the only ones written. -/
structure Retires (l : TlabId → Ledger) (r : TlabRegistry) (m : Memory) (ids : List TlabId)
    (result : Nat × Memory × TlabRegistry) : Prop where
  total : result.1 = (ids.map fun id => ((r.get id).stop - (r.get id).top) / wordBytes).sum
  buffers : ∀ id, result.2.2.get id = if id ∈ ids then (r.get id).emptied else r.get id
  registered : result.2.2.registered = r.registered
  frame : ∀ i, (∀ id ∈ ids, ¬(r.get id).InTail i) → result.2.1.word i = m.word i
  /-- A tail that a header can count carries one filler of its size. -/
  fillers : ∀ id ∈ ids, 0 < (r.get id).freeWords → (r.get id).freeWords < Header.sizeLimit →
    Object.header result.2.1 (r.get id).top = ⟨(r.get id).freeWords, 0, Header.fillerFlag⟩
  granted : ∀ id, (r.get id).isEmpty = false → ∀ p ∈ (l id).grants, ∀ i < p.2,
    result.2.1.word (p.1 / wordBytes + i) = m.word (p.1 / wordBytes + i)

/-- What a use of the buffers keeps. -/
structure Kept (r : TlabRegistry) (ids : Set TlabId) (l : TlabId → Ledger) : Prop where
  members : ∀ id, id ∈ r.registered ↔ id ∈ ids
  nodup : r.registered.Nodup
  known : ∀ id ∈ r.registered, id < r.buffers.size
  matches_ledger : ∀ id, (r.get id).Matches (l id)
  apart : ∀ id id' a, id ≠ id' → (r.get id).contains a = true → (r.get id').contains a = false

namespace Kept

variable {r : TlabRegistry} {ids : Set TlabId} {l : TlabId → Ledger} {id : TlabId}

theorem empty : Kept .empty ∅ fun _ => .empty := by
  have hget (id : TlabId) : TlabRegistry.empty.get id = .empty := TlabRegistry.get_of_size_le (Nat.zero_le _)
  refine ⟨fun id => by simp [TlabRegistry.empty], List.nodup_nil, by simp [TlabRegistry.empty], ?_, ?_⟩
  · intro id
    rw [hget]
    exact .new
  · intro id id' a _ hc
    rw [hget] at hc
    cases (Tlab.contains_iff.1 hc).2

theorem register (h : Kept r ids l) : Kept r.register.2 (insert r.register.1 ids) l := by
  have hnew : r.buffers.size ∉ r.registered := fun hmem => Nat.lt_irrefl _ (h.known _ hmem)
  constructor
  case members =>
    intro id
    simp [TlabRegistry.register, h.members, or_comm]
  case nodup =>
    refine List.nodup_append.2 ⟨h.nodup, List.nodup_singleton _, fun a ha b hb he => hnew ?_⟩
    rwa [← List.mem_singleton.1 hb, ← he]
  case known =>
    intro id hid
    simp only [TlabRegistry.register, List.mem_append, List.mem_singleton, Array.size_push] at hid ⊢
    rcases hid with hid | rfl
    · exact Nat.lt_succ_of_lt (h.known id hid)
    · exact Nat.lt_succ_self _
  case matches_ledger =>
    intro id
    rw [TlabRegistry.get_register]
    exact h.matches_ledger id
  case apart =>
    intro id id' a
    rw [TlabRegistry.get_register, TlabRegistry.get_register]
    exact h.apart id id' a

theorem unregister (h : Kept r ids l) (id : TlabId) : Kept (r.unregister id) (ids \ {id}) l :=
  ⟨fun id' => by simp [TlabRegistry.unregister, h.members], h.nodup.filter _,
    fun id' hid' => h.known id' (List.mem_of_mem_filter hid'), h.matches_ledger, h.apart⟩

/-- One buffer changes, and its range does not grow over another one. -/
theorem set (h : Kept r ids l) (known : id < r.buffers.size) {t : Tlab} {entry : Ledger} (hmatch : t.Matches entry)
    (hrange : ∀ id' ≠ id, ∀ a, t.contains a = true → (r.get id').contains a = false) :
    Kept (r.set id t) ids (Function.update l id entry) := by
  have hget := TlabRegistry.get_set known t
  constructor
  case members => exact h.members
  case nodup => exact h.nodup
  case known =>
    intro id' hid'
    have hsize : (r.set id t).buffers.size = r.buffers.size := Array.size_setIfInBounds
    rw [hsize]
    exact h.known id' hid'
  case matches_ledger =>
    intro id'
    rw [hget]
    by_cases hid : id' = id
    · subst hid
      rwa [if_pos rfl, Function.update_self]
    · rw [if_neg hid, Function.update_of_ne hid]
      exact h.matches_ledger id'
  case apart =>
    intro id₁ id₂ a hne hc
    rw [hget] at hc ⊢
    by_cases h₁ : id₁ = id <;> by_cases h₂ : id₂ = id
    · exact absurd (h₁.trans h₂.symm) hne
    · rw [if_pos h₁] at hc
      rw [if_neg h₂]
      exact hrange id₂ h₂ a hc
    · rw [if_neg h₁] at hc
      rw [if_pos h₂]
      refine Bool.eq_false_iff.2 fun ht => ?_
      rw [hrange id₁ h₁ a ht] at hc
      cases hc
    · rw [if_neg h₁] at hc
      rw [if_neg h₂]
      exact h.apart id₁ id₂ a hne hc

theorem not_contains_of_isEmpty (h : Kept r ids l) (hempty : (r.get id).isEmpty = true) (a : Address) :
    (r.get id).contains a = false := by
  refine Bool.eq_false_iff.2 fun hc => ?_
  have := (Tlab.contains_iff.1 hc).2
  rw [((h.matches_ledger id).empty hempty).2] at this
  cases this

theorem emptied (h : Kept r ids l) (known : id < r.buffers.size) : Kept (r.set id (r.get id).emptied) ids l := by
  have hset := h.set known (h.matches_ledger id).emptied fun id' _ a hc => ?_
  · rwa [Function.update_eq_self] at hset
  · -- an empty buffer has no word
    obtain ⟨-, hstop⟩ := (h.matches_ledger id).emptied.empty (Tlab.isEmpty_emptied _)
    have := (Tlab.contains_iff.1 hc).2
    rw [hstop] at this
    cases this

/-! ## Retirement -/

theorem tails_apart (h : Kept r ids l) {id' : TlabId} (hne : id ≠ id') {i : Nat} (hi : (r.get id).InTail i) :
    ¬(r.get id').InTail i := by
  intro hi'
  have := h.apart id id' _ hne ((h.matches_ledger id).contains_tail hi)
  rw [(h.matches_ledger id').contains_tail hi'] at this
  cases this

/-- A granted word is in the tail of no buffer. -/
theorem granted_not_inTail (h : Kept r ids l) (hne : (r.get id).isEmpty = false) {p : Address × Nat}
    (hp : p ∈ (l id).grants) {i : Nat} (hi : i < p.2) (id' : TlabId) : ¬(r.get id').InTail (p.1 / wordBytes + i) := by
  obtain ⟨hc, hnot⟩ := (h.matches_ledger id).contains_grant hne hp hi
  intro hi'
  by_cases hid : id' = id
  · exact hnot (hid ▸ hi')
  · have := h.apart id' id _ hid ((h.matches_ledger id').contains_tail hi')
    rw [hc] at this
    cases this

theorem retires_of_frame (h : Kept r ids l) {m : Memory} {which : List TlabId} {result : Nat × Memory × TlabRegistry}
    (total : result.1 = (which.map fun id => ((r.get id).stop - (r.get id).top) / wordBytes).sum)
    (buffers : ∀ id, result.2.2.get id = if id ∈ which then (r.get id).emptied else r.get id)
    (registered : result.2.2.registered = r.registered)
    (frame : ∀ i, (∀ id ∈ which, ¬(r.get id).InTail i) → result.2.1.word i = m.word i)
    (fillers : ∀ id ∈ which, 0 < (r.get id).freeWords → (r.get id).freeWords < Header.sizeLimit →
      Object.header result.2.1 (r.get id).top = ⟨(r.get id).freeWords, 0, Header.fillerFlag⟩) :
    Retires l r m which result :=
  ⟨total, buffers, registered, frame, fillers, fun _ hne _ hp _ hi =>
    frame _ fun id' _ => h.granted_not_inTail hne hp hi id'⟩

/-- A buffer is retired alone. -/
theorem retire (h : Kept r ids l) (known : id < r.buffers.size) (m : Memory) : ∃ m',
    r.retire m id = ((r.get id).freeWords, m', r.set id (r.get id).emptied) ∧
      Retires l r m [id] ((r.get id).freeWords, m', r.set id (r.get id).emptied) := by
  have hmatch := h.matches_ledger id
  refine ⟨_, by rw [TlabRegistry.retire, hmatch.retire_eq], h.retires_of_frame ?_ ?_ rfl ?_ ?_⟩
  · simp [Tlab.freeWords]
  · intro id'
    rw [TlabRegistry.get_set known]
    by_cases hid : id' = id <;> simp [hid]
  · intro i hi
    have hi := hi id (List.mem_singleton.2 rfl)
    dsimp only
    split
    · next hpos =>
      refine Object.sameBut_write m 0 Header.fillerFlag hpos (Nat.le_refl _) i fun hin => hi ?_
      have htop := hmatch.top_le
      unfold Tlab.InTail
      unfold Tlab.freeWords wordBytes Address at *
      omega
    · rfl
  · intro id' hid' hpos hlt
    obtain rfl := List.mem_singleton.1 hid'
    dsimp only
    rw [if_pos hpos, Object.fill, Object.header_write, Nat.mod_eq_of_lt hlt]
    rfl

/-- A buffer is retired before others, and none of them writes over its filler. -/
theorem retire_cons (h : Kept r ids l) {which : List TlabId} (hnot : id ∉ which) {m m₁ : Memory} {r₁ : TlabRegistry}
    {waste : Nat} {result : Nat × Memory × TlabRegistry} (one : Retires l r m [id] (waste, m₁, r₁))
    (rest : Retires l r₁ m₁ which result) : Retires l r m (id :: which) (waste + result.1, result.2) := by
  have hget {id' : TlabId} (hid' : id' ∈ which) : r₁.get id' = r.get id' := by
    rw [show r₁.get id' = _ from one.buffers id', if_neg]
    exact fun hin => hnot (List.mem_singleton.1 hin ▸ hid')
  refine h.retires_of_frame ?_ ?_ (rest.registered.trans one.registered) ?_ ?_
  · rw [List.map_cons, List.sum_cons]
    have hsame := List.map_congr_left (l := which) fun id' hid' =>
      congrArg (fun t : Tlab => (t.stop - t.top) / wordBytes) (hget hid')
    simpa [rest.total, hsame] using one.total
  · intro id'
    rw [rest.buffers, show r₁.get id' = _ from one.buffers id']
    by_cases hid : id' = id <;> by_cases hin : id' ∈ which <;> simp [hid, hin, Tlab.emptied_of_isEmpty]
  · intro i hi
    rw [rest.frame i fun id' hid' => hget hid' ▸ hi id' (List.mem_cons_of_mem _ hid')]
    exact one.frame i fun id' hid' => List.mem_singleton.1 hid' ▸ hi id List.mem_cons_self
  · intro id' hid' hpos hlt
    rcases List.mem_cons.1 hid' with rfl | hin
    · rw [← one.fillers id' (List.mem_singleton.2 rfl) hpos hlt]
      refine Object.header_congr (rest.frame _ fun id₂ hid₂ => hget hid₂ ▸ ?_)
      have htail : (r.get id').InTail ((r.get id').top / wordBytes) := by
        refine ⟨Nat.le_refl _, ?_⟩
        unfold Tlab.freeWords wordBytes Address at *
        omega
      exact h.tails_apart (fun he : id' = id₂ => hnot (he ▸ hid₂)) htail
    · rw [← hget hin] at hpos hlt ⊢
      exact rest.fillers id' hin hpos hlt

theorem retireMany (which : List TlabId) : ∀ {r : TlabRegistry} (_ : Kept r ids l) (_ : which.Nodup)
    (_ : ∀ id ∈ which, id < r.buffers.size) (m : Memory) (sum : Nat), ∃ result,
      which.foldl (fun (total, m, r) id =>
        let (waste, m, r) := r.retire m id
        (total + waste, m, r)) (sum, m, r) = (sum + result.1, result.2) ∧
      Kept result.2.2 ids l ∧ Retires l r m which result := by
  induction which with
  | nil =>
    intro r h _ _ m sum
    exact ⟨(0, m, r), rfl, h, h.retires_of_frame rfl (fun _ => rfl) rfl (fun _ _ => rfl) (by simp)⟩
  | cons id which ih =>
    intro r h hnodup hknown m sum
    obtain ⟨hnot, hnodup⟩ := List.nodup_cons.1 hnodup
    have known := hknown id List.mem_cons_self
    obtain ⟨m₁, hretire, hone⟩ := h.retire known m
    obtain ⟨result, hrun, hkept, hrest⟩ := ih (h.emptied known) hnodup (fun id' hid' => by
      have hsize : (r.set id (r.get id).emptied).buffers.size = r.buffers.size := Array.size_setIfInBounds
      rw [hsize]
      exact hknown id' (List.mem_cons_of_mem _ hid')) m₁ (sum + (r.get id).freeWords)
    refine ⟨((r.get id).freeWords + result.1, result.2), ?_, hkept, h.retire_cons hnot hone hrest⟩
    rw [List.foldl_cons]
    simp only [hretire, ← Nat.add_assoc]
    exact hrun

theorem retireAll (h : Kept r ids l) (m : Memory) :
    Kept (r.retireAll m).2.2 ids l ∧ Retires l r m r.registered (r.retireAll m) := by
  obtain ⟨result, hrun, hkept, hretires⟩ := h.retireMany r.registered h.nodup h.known m 0
  have hall : r.retireAll m = result := by
    rw [TlabRegistry.retireAll, hrun, Nat.zero_add]
  exact hall ▸ ⟨hkept, hretires⟩

end Kept

variable {r : TlabRegistry} {ids : Set TlabId} {l : TlabId → Ledger}

theorem Used.kept (h : Used r ids l) : Kept r ids l := by
  induction h with
  | empty => exact .empty
  | register _ ih => exact ih.register
  | unregister _ id ih => exact ih.unregister id
  | @install r ids l id start words _ known hempty start_ne aligned apart ih =>
    refine ih.set known ((ih.matches_ledger id).install start_ne aligned) fun id' hid' a hc => ?_
    obtain ⟨hlo, hhi⟩ := Tlab.contains_iff.1 hc
    exact apart id' hid' a hlo hhi
  | @allocate r ids l id words a t _ known run ih =>
    obtain ⟨hmatch, hstart, hstop⟩ := (ih.matches_ledger id).allocate run
    refine ih.set known hmatch fun id' hid' b hc => ih.apart id id' b (Ne.symm hid') ?_
    rw [Tlab.contains_iff] at hc ⊢
    rwa [hstart, hstop] at hc
  | @retire r ids l id _ known m ih =>
    obtain ⟨m', hrun, -⟩ := ih.retire known m
    rw [hrun]
    exact ih.emptied known
  | retireAll _ m ih => exact (ih.retireAll m).1

/-- **The buffers divide their ranges**, by the ledger. -/
structure Partitioned (r : TlabRegistry) (ids : Set TlabId) (l : TlabId → Ledger) : Prop where
  registered : r.registered.Nodup ∧ ∀ id, id ∈ r.registered ↔ id ∈ ids
  tiled : ∀ id, (r.get id).isEmpty = false →
    (r.get id).start ≤ (r.get id).top ∧ (r.get id).top ≤ (r.get id).stop ∧
      Adjacent (r.get id).top (r.get id).start (l id).grants
  /-- A grant is refused exactly where it would go past the end. -/
  refuses : ∀ id words, (r.get id).allocate words = none ↔ (r.get id).stop < (r.get id).top + words * wordBytes
  retire : ∀ id < r.buffers.size, ∀ m, Retires l r m [id] (r.retire m id)
  retireAll : ∀ m, Retires l r m r.registered (r.retireAll m)
  counts : ∀ id, (r.get id).refills = (l id).installs ∧ (r.get id).allocatedWords = (l id).words

/-- **Whatever the use of the buffers was**, they divide their ranges, and a retirement spares all they granted. -/
theorem Used.partitioned (h : Used r ids l) : Partitioned r ids l := by
  have hk := h.kept
  constructor
  case registered => exact ⟨hk.nodup, hk.members⟩
  case tiled =>
    intro id hne
    obtain ⟨-, -, htop, hgrants⟩ := (hk.matches_ledger id).range hne
    exact ⟨hgrants.le, htop, hgrants⟩
  case refuses => exact fun id _ => (hk.matches_ledger id).allocate_eq_none_iff
  case retire =>
    intro id known m
    obtain ⟨m', hrun, hretires⟩ := hk.retire known m
    exact hrun ▸ hretires
  case retireAll => exact fun m => (hk.retireAll m).2
  case counts => exact fun id => ⟨(hk.matches_ledger id).refills, (hk.matches_ledger id).words⟩

/-- Two buffers side by side, one of them no longer registered: retiring all leaves the words of the other one alone. -/
theorem exists_partitioned : ∃ r ids l, Used r ids l ∧ (r.get 1).isEmpty = false ∧ Partitioned r ids l ∧
    (r.retireAll .blank).1 = 6 ∧ (r.retireAll .blank).2.2.get 1 = r.get 1 := by
  have hnew : Used _ _ _ := Used.empty.register.register
  have hfresh (id : TlabId) : (TlabRegistry.empty.register.2.register.2).get id = .empty := by
    rw [TlabRegistry.get_register, TlabRegistry.get_register, TlabRegistry.get_of_size_le (Nat.zero_le _)]
  have hfirst := @Used.install _ _ _ 0 4096 8 hnew (by decide) rfl (by decide) (by decide)
    fun id _ a _ _ => hnew.kept.not_contains_of_isEmpty (by rw [hfresh]; rfl) a
  have hsecond := @Used.install _ _ _ 1 4160 4 hfirst (by decide) rfl (by decide) (by decide) ?_
  · have hgranted := (@Used.allocate _ _ _ 0 2 _ _ hsecond (by decide) rfl).unregister 1
    exact ⟨_, _, _, hgranted, rfl, hgranted.partitioned, rfl, rfl⟩
  · intro id hid a hlo _
    refine Bool.eq_false_iff.2 fun hc => ?_
    rw [TlabRegistry.get_set (by decide), hfresh] at hc
    by_cases hzero : id = 0
    · rw [if_pos hzero] at hc
      exact absurd (Tlab.contains_iff.1 hc).2 (Nat.not_lt_of_le hlo)
    · rw [if_neg hzero, hfresh] at hc
      cases (Tlab.contains_iff.1 hc).2

end TlabRegistry

end MarkSweep
