import Mathlib.Logic.Relation
import MarkSweep.Proofs.Heap.Creation
import MarkSweep.Proofs.Session.Steps
/-!
# Headers describe what was granted

The size in a header has 32 bits, but nothing keeps a heap from having more words, or from granting them at once.  So the
headers of all objects and of all retired tails describe their words on the heaps of fewer than `2 ^ 32` words, and on
these only (`create_describes_iff`).
-/
namespace MarkSweep
namespace Space

variable {s : Space} {ts : List Tile} {t : Tile}

/-- The header at `a` describes `n` words: its size rounds up to them, and a walk steps from `a` to their end. -/
def Describes (s : Space) (m : Memory) (a : Address) (n : Nat) : Prop :=
  s.adjust (Object.size m a) = .ok n ∧ s.extentAt m a = .ok (.object a n)

theorem Tiled.describes (h : s.Tiled ts) (ht : t ∈ ts) (hfree : ¬t.IsFree) {m : Memory} (hhead : s.Headed m t) :
    s.Describes m (s.address t.first) (t.count * s.granuleWords) := by
  have hmeets := h.meets ht fun _ => hhead
  have hextent := hmeets.extentAt_eq h.toRegular
  rw [extent, if_neg hfree] at hextent
  exact ⟨hmeets.adjust_size h.toRegular hfree, hextent⟩

/-- A size that was cut to 32 bits does not round up to the words it was cut from. -/
theorem adjust_ne_of_cut {n : Nat} (hn : Header.sizeLimit ≤ n) (hg : s.granuleWords < Header.sizeLimit) :
    s.adjust (n % Header.sizeLimit) ≠ .ok n := by
  intro h
  unfold adjust at h
  obtain ⟨hpos, -, h⟩ := alignUp_eq_ok_iff.1 h
  have hle := Nat.div_mul_le_self (max (n % Header.sizeLimit) 1 + (s.granuleWords - 1)) s.granuleWords
  have hdiv := Nat.div_add_mod n Header.sizeLimit
  have hq : 1 ≤ n / Header.sizeLimit := (Nat.one_le_div_iff (by decide)).2 hn
  have hmul : Header.sizeLimit ≤ Header.sizeLimit * (n / Header.sizeLimit) := Nat.le_mul_of_pos_right _ hq
  rw [← h] at hle
  omega

end Space

namespace Session

variable {s : Session} {ts : List Tile}

/-- **Headers describe what was granted**: an object, whether it is still the filler it was granted as or was formatted
since, and what is left of a buffer once it is retired. -/
structure Described (s : Session) : Prop where
  objects : ∀ o ∈ s.objects, ∃ n, s.heap.space.adjust o.words = .ok n ∧
    s.heap.space.Describes s.heap.memory o.start n
  tails : ∀ id, 0 < (s.heap.tlabs.get id).freeWords → ∀ m,
    s.heap.space.Describes ((s.heap.tlabs.get id).retire m).2.1 (s.heap.tlabs.get id).top (s.heap.tlabs.get id).freeWords

theorem Inv.described (hi : s.Inv ts) : s.Described := by
  have hm := hi.sound.mapped
  have hs := hm.tiled
  constructor
  case objects =>
    intro o ho
    have hholds := hi.objects o ho
    obtain ⟨k, hk, hstart⟩ := hholds.tile
    have hdesc := hs.describes hk (by rintro ⟨⟩) (hholds.headed hs.granule_pos hstart)
    have hfit : o.words ≤ s.heap.space.region.wordSize := by
      rw [hs.wordSize_eq]
      refine Nat.le_trans (s.heap.space.words_le_granulesFor o.words hs.granule_pos) (Nat.mul_le_mul_right _ ?_)
      exact Nat.le_trans (Nat.le_add_left _ _) (hs.stop_le hk)
    exact ⟨_, hs.adjust_eq hfit, hstart ▸ hdesc⟩
  case tails =>
    intro id hpos m
    rcases hm.tail_cases id with ⟨hzero, -⟩ | ⟨pre, k, n, post, rfl, hne, htop, hstop, hfree, -⟩
    · rw [hzero] at hpos
      cases hpos
    have hmem : (⟨.tail id, k, n⟩ : Tile) ∈ pre ++ ⟨.tail id, k, n⟩ :: post := by simp
    have hsize : n * s.heap.space.granuleWords < Header.sizeLimit := hm.words_lt (by simp) (by simp)
    have hretire : ((s.heap.tlabs.get id).retire m).2.1 =
        Object.fill m (s.heap.space.address k) (n * s.heap.space.granuleWords) := by
      rw [hfree] at hpos
      simp only [Tlab.retire, hne, Bool.false_eq_true, if_false, hfree, if_pos hpos, htop]
    rw [hretire, htop, hfree]
    refine hs.describes hmem (by rintro ⟨⟩) ?_
    unfold Space.Headed Object.size Object.fill
    rw [Object.header_write]
    simp only [Nat.mod_eq_of_lt hsize]
    exact s.heap.space.granulesFor_mul hs.granule_pos (hs.count_pos hmem)

variable {settings : Settings} {base : Address} {h : Heap}

theorem adjust_wordSize (hnew : Heap.New settings base h) :
    h.space.adjust h.space.region.wordSize = .ok h.space.region.wordSize := by
  have hs := hnew.tiled
  rw [hs.adjust_eq (Nat.le_refl _), hs.wordSize_eq, h.space.granulesFor_mul hs.granule_pos hnew.framed.nonempty]

/-- A new heap grants all of its words at once. -/
theorem allocate_whole (hnew : Heap.New settings base h) : ∃ h',
    (Heap.allocate h.space.region.wordSize).run h = .ok (.ok (h.space.address 0)) h' ∧
      h'.memory = Object.fill h.memory (h.space.address 0) h.space.region.wordSize ∧ h.space.SameGrid h'.space := by
  have hs := hnew.tiled
  have hno := mt h.space.refuses_iff.1 (not_not.2 (Nat.le_refl h.space.region.wordSize))
  obtain ⟨space, hrun, hgrid⟩ := hs.allocate_low hnew.framed.nonempty (Nat.le_refl _)
  have hcarve : (Heap.carve h.space.region.wordSize).run h = .ok (some (h.space.address 0)) { h with space } := by
    unfold Heap.carve
    rw [run_bind_of_ok (EStateM.run_get h), hrun]
    rfl
  have hwhole : (Heap.carveOrCollect h.space.region.wordSize).run h =
      .ok (.ok (h.space.address 0)) { h with space } := by
    unfold Heap.carveOrCollect
    rw [run_bind_of_ok (EStateM.run_get h), if_neg hno, run_bind_of_ok hcarve]
    rfl
  have hadj : Heap.adjust { h with space } h.space.region.wordSize = .ok h.space.region.wordSize := by
    rw [Heap.adjust, Space.adjust, hgrid.2]
    exact adjust_wordSize hnew
  refine ⟨Heap.fill { h with space } (h.space.address 0) h.space.region.wordSize, ?_, rfl, hgrid⟩
  unfold Heap.allocate
  rw [run_bind_of_ok hwhole]
  simp only
  rw [run_bind_of_ok (EStateM.run_get _), hadj, run_bind_of_ok (run_lift_ok _ _), run_bind_of_ok (EStateM.run_modify _ _)]
  rfl

/-- The heap has fewer words than a header can count unless the settings ask for as many. -/
theorem wordSize_lt_iff (hnew : Heap.New settings base h) : h.space.region.wordSize < Header.sizeLimit ↔
    settings.maxHeapSize + pageBytes ≤ Header.sizeLimit * wordBytes := by
  rw [hnew.region, Region.wordSize, Region.byteSize, Nat.add_sub_cancel_left, hnew.max_size]
  unfold Header.sizeLimit pageBytes wordBytes
  omega

/-- **On which heaps headers describe what was granted**, whatever the program does: on those of fewer than `2 ^ 32`
words, and on no others. -/
theorem create_describes_iff {granted hook : Bool} {available : Nat → Bool}
    (hrun : Heap.create settings base granted hook available = .ok h)
    (hbase : pageBytes ∣ base) (hpos : base ≠ 0) (hhigh : h.high < addressLimit) :
    (∀ s, Relation.ReflTransGen Step (start h) s → s.Described) ↔
      settings.maxHeapSize + pageBytes ≤ Header.sizeLimit * wordBytes := by
  have hnew := Heap.create_spec hrun hbase hpos hhigh
  rw [← wordSize_lt_iff hnew]
  constructor
  · -- one request for all words of the heap shows whether a header can count them
    intro hall
    refine Nat.lt_of_not_le fun hbig => ?_
    obtain ⟨h', hrun', hmem, hgrid⟩ := allocate_whole hnew
    have hdesc := hall _ (.single (.allocate hrun'))
    obtain ⟨n, hn, hsize, -⟩ := hdesc.objects ⟨h.space.address 0, h.space.region.wordSize, none, _⟩
      (List.mem_append_right _ (List.mem_singleton.2 rfl))
    have hadj (words : Nat) : h'.space.adjust words = h.space.adjust words := by rw [Space.adjust, Space.adjust, hgrid.2]
    change h'.space.adjust h.space.region.wordSize = .ok n at hn
    change h'.space.adjust (Object.size h'.memory (h.space.address 0)) = .ok n at hsize
    rw [hadj, adjust_wordSize hnew] at hn
    cases hn
    rw [hadj, hmem, Object.size, Object.fill, Object.header_write] at hsize
    have hgranule := hnew.acceptable.granule_le
    rw [← hnew.granule_words] at hgranule
    refine Space.adjust_ne_of_cut hbig ?_ hsize
    unfold wordBytes pageBytes at hgranule
    unfold Header.sizeLimit
    omega
  · intro hsmall s hs
    have hreached : Reached s := by
      induction hs with
      | refl => exact .create hrun hbase hpos hhigh hsmall
      | tail _ next ih => exact .step ih next
    obtain ⟨ts, hi⟩ := hreached.inv
    exact hi.described

/-- Settings that are accepted and make a heap of `2 ^ 32` words. -/
def wholeInOne : Settings :=
  { initialHeapSize := 0, maxHeapSize := 34359738368, minTlabSize := 1024, maxTlabSize := 1024, tlabSize := 1024,
    granuleWords := 2 }

/-- A heap that can grant more words than a header can count. -/
theorem exists_undescribed : ∃ h, Heap.create wholeInOne 4096 true false = .ok h ∧
    ¬∀ s, Relation.ReflTransGen Step (start h) s → s.Described := by
  have hrun : (match Heap.create wholeInOne 4096 true false with
      | .ok h => decide (h.high < addressLimit)
      | .error _ => false) = true := by decide +kernel
  split at hrun
  · next h hcreate =>
    refine ⟨h, hcreate, ?_⟩
    rw [create_describes_iff hcreate (by decide) (by decide) (of_decide_eq_true hrun)]
    decide
  · cases hrun

end Session
end MarkSweep
