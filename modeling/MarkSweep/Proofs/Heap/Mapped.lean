import MarkSweep.Heap.Tlab
import MarkSweep.Proofs.Object
import MarkSweep.Proofs.Space.Sweep
import Mathlib.Data.List.Nodup
/-!
# Space, memory and buffers agree on the tiles

`Mapped s m r ts` says that the tiles describe the heap completely: free tiles are the free chunks, an object tile
starts with a header that rounds up to it, and the tail of every buffer in use is the one tail tile of that buffer.
Every operation replaces one tile; `Mapped.replace` is the step they share.  No buffer counts more granted words than the
ranges it was given have (`Tlab.Metered`).
-/
namespace MarkSweep

/-- Two states of a buffer over the same words. -/
def Tlab.SameRange (t t' : Tlab) : Prop := t'.start = t.start ∧ t'.stop = t.stop ∧ t'.refills = t.refills

theorem Tlab.allocate_of_le {t : Tlab} {words : Nat} (h : words ≤ t.freeWords) : t.allocate words = some (t.top,
    { t with top := t.top + words * wordBytes, allocatedWords := t.allocatedWords + words }) := if_neg (Nat.not_lt_of_le h)

namespace TlabRegistry

variable {r : TlabRegistry} {id : TlabId}

theorem get_set (hid : id < r.buffers.size) (t : Tlab) (id' : TlabId) :
    (r.set id t).get id' = if id' = id then t else r.get id' := by
  unfold set get
  by_cases h : id' = id
  · subst h
    simp [hid]
  · rw [if_neg h, Array.getElem?_setIfInBounds_ne fun he => h he.symm]

theorem get_of_size_le (hid : r.buffers.size ≤ id) : r.get id = .empty := by
  unfold get
  rw [Array.getElem?_eq_none hid]
  rfl

theorem get_register (r : TlabRegistry) (id : TlabId) : r.register.2.get id = r.get id := by
  unfold register get
  simp only [Array.getElem?_push]
  by_cases he : id = r.buffers.size
  · rw [if_pos he, he, Array.getElem?_eq_none (Nat.le_refl _)]
    rfl
  · rw [if_neg he]

theorem register_known (r : TlabRegistry) : r.register.1 < r.register.2.buffers.size := by
  show r.buffers.size < (r.buffers.push .empty).size
  rw [Array.size_push]
  exact Nat.lt_succ_self _

theorem get_register_self (r : TlabRegistry) : r.register.2.get r.register.1 = .empty :=
  (r.get_register _).trans (get_of_size_le (Nat.le_refl _))

end TlabRegistry

namespace Space

/-- The number of the word at which a granule starts. -/
def wordAt (s : Space) (k : Nat) : Nat := s.region.start / wordBytes + k * s.granuleWords

theorem Regular.address_div_eq {s : Space} (h : s.Regular) (k : Nat) : s.address k / wordBytes = s.wordAt k :=
  h.address_div k

theorem wordAt_mono (s : Space) {i j : Nat} (h : i ≤ j) : s.wordAt i ≤ s.wordAt j :=
  Nat.add_le_add_left (Nat.mul_le_mul_right _ h) _

theorem wordAt_add (s : Space) (i n : Nat) : s.wordAt (i + n) = s.wordAt i + n * s.granuleWords := by
  rw [wordAt, wordAt, Nat.add_mul, Nat.add_assoc]

theorem SameGrid.wordAt {s t : Space} (h : s.SameGrid t) (k : Nat) : t.wordAt k = s.wordAt k := by
  rw [Space.wordAt, Space.wordAt, h.1, h.2]

theorem Headed.congr {s : Space} (h : s.Regular) {m m' : Memory} {t : Tile} (ht : s.Headed m t) (hpos : 0 < t.count)
    (hm : m.SameOn m' (s.wordAt t.first) (s.wordAt t.stop)) : s.Headed m' t := by
  have hlt : s.wordAt t.first < s.wordAt t.stop := by
    rw [Tile.stop, wordAt_add]
    exact Nat.lt_add_of_pos_right (Nat.mul_pos hpos h.granule_pos)
  have hword := hm _ (Nat.le_refl _) hlt
  rw [← h.address_div_eq] at hword
  unfold Headed Object.size at *
  rw [Object.header_congr hword]
  exact ht

/-- A header can count the words that a request for `words` words is granted. -/
def Countable (s : Space) (words : Nat) : Prop :=
  words ≤ s.region.wordSize → s.granulesFor words * s.granuleWords < Header.sizeLimit

/-- On a region of fewer words than a header can count, it can count those of every request. -/
theorem Regular.countable {s : Space} (h : s.Regular) (hpos : 0 < s.granules)
    (hsmall : s.region.wordSize < Header.sizeLimit) (words : Nat) : s.Countable words := by
  intro hfit
  refine Nat.lt_of_le_of_lt ?_ hsmall
  rw [h.wordSize_eq]
  exact Nat.mul_le_mul_right _ (h.granulesFor_le hpos hfit)

theorem SameGrid.countable {s t : Space} (h : s.SameGrid t) {words : Nat} (hw : s.Countable words) : t.Countable words := by
  unfold Countable
  rw [h.1, h.2, h.granulesFor]
  exact hw

end Space

/-! ## Buffers -/

/-- The words that a buffer granted, and those it can still grant, come from ranges of at most `most` words. -/
def Tlab.Metered (t : Tlab) (most : Nat) : Prop := t.allocatedWords + t.freeWords ≤ t.refills * most

namespace Tlab.Metered

variable {t t' : Tlab} {most words : Nat}

theorem empty (most : Nat) : Tlab.empty.Metered most := Nat.zero_le _

theorem install (h : t.Metered most) (start : Address) (hwords : words ≤ most) : (t.install start words).Metered most := by
  have hfree : (t.install start words).freeWords = words := by
    rw [freeWords, Tlab.install, Nat.add_sub_cancel_left, Nat.mul_div_cancel _ (by decide)]
  unfold Metered at *
  rw [hfree]
  calc t.allocatedWords + words ≤ t.refills * most + most := Nat.add_le_add (Nat.le_of_add_right_le h) hwords
    _ = (t.refills + 1) * most := (Nat.succ_mul _ _).symm

/-- A grant only moves words from the one sum to the other. -/
theorem allocate (h : t.Metered most) {a : Address} (hrun : t.allocate words = some (a, t')) : t'.Metered most := by
  unfold Tlab.allocate at hrun
  split at hrun
  · cases hrun
  next hfits =>
  cases hrun
  refine Nat.le_trans (Nat.le_of_eq ?_) h
  unfold freeWords wordBytes at *
  dsimp only
  omega

end Tlab.Metered

/-- The tiles hold the tail of buffer `id`, as `t` has it. -/
def Fits (s : Space) (ts : List Tile) (id : TlabId) (t : Tlab) : Prop :=
  (t.isEmpty = true ∧ t.top = t.stop ∧ ∀ i n, (⟨.tail id, i, n⟩ : Tile) ∉ ts) ∨
  (t.isEmpty = false ∧ ∃ i j, i ≤ j ∧ j ≤ s.granules ∧ t.top = s.address i ∧ t.stop = s.address j ∧
    ∀ i' n, (⟨.tail id, i', n⟩ : Tile) ∈ ts ↔ i < j ∧ i' = i ∧ n = j - i)

theorem Fits.congr {s s' : Space} {ts ts' : List Tile} {id : TlabId} {t : Tlab} (h : Fits s ts id t)
    (hg : s.SameGrid s') (hts : ∀ i n, (⟨.tail id, i, n⟩ : Tile) ∈ ts' ↔ (⟨.tail id, i, n⟩ : Tile) ∈ ts) :
    Fits s' ts' id t := by
  rcases h with ⟨h1, h2, h3⟩ | ⟨h1, i, j, h2, h3, h4, h5, h6⟩
  · exact .inl ⟨h1, h2, fun i n hm => h3 i n ((hts i n).1 hm)⟩
  · refine .inr ⟨h1, i, j, h2, by rw [hg.granules]; exact h3, by rw [hg.address]; exact h4,
      by rw [hg.address]; exact h5, fun i' n => (hts i' n).trans (h6 i' n)⟩

/-- Every buffer that is not registered is empty, and the tail tiles are the tails of the others. -/
structure Buffers (s : Space) (r : TlabRegistry) (ts : List Tile) : Prop where
  nodup : r.registered.Nodup
  known : ∀ id ∈ r.registered, id < r.buffers.size
  unregistered : ∀ id, id ∉ r.registered → (r.get id).isEmpty = true
  fits : ∀ id, Fits s ts id (r.get id)
  metered : ∀ id, (r.get id).Metered s.region.wordSize

namespace Buffers

variable {s s' : Space} {r : TlabRegistry} {ts ts' : List Tile} {id : TlabId}

theorem congr (h : Buffers s r ts) (hg : s.SameGrid s')
    (hts : ∀ id i n, (⟨.tail id, i, n⟩ : Tile) ∈ ts' ↔ (⟨.tail id, i, n⟩ : Tile) ∈ ts) : Buffers s' r ts' :=
  ⟨h.nodup, h.known, h.unregistered, fun id => (h.fits id).congr hg (hts id), fun id => hg.1 ▸ h.metered id⟩

theorem set (h : Buffers s r ts) (hid : id ∈ r.registered) {t : Tlab} (ht : Fits s ts' id t)
    (hmetered : t.Metered s.region.wordSize)
    (hts : ∀ id' i n, id' ≠ id → ((⟨.tail id', i, n⟩ : Tile) ∈ ts' ↔ (⟨.tail id', i, n⟩ : Tile) ∈ ts)) :
    Buffers s (r.set id t) ts' := by
  have hlt := h.known id hid
  refine ⟨h.nodup, ?_, ?_, ?_, ?_⟩
  · intro id' h'
    rw [TlabRegistry.set, Array.size_setIfInBounds]
    exact h.known id' h'
  · intro id' h'
    have hne : id' ≠ id := fun he => h' (he ▸ hid)
    rw [TlabRegistry.get_set hlt, if_neg hne]
    exact h.unregistered id' h'
  · intro id'
    rw [TlabRegistry.get_set hlt]
    by_cases he : id' = id
    · rw [if_pos he, he]
      exact ht
    · rw [if_neg he]
      exact (h.fits id').congr (.refl s) fun i n => hts id' i n he
  · intro id'
    rw [TlabRegistry.get_set hlt]
    split
    · exact hmetered
    · exact h.metered id'

theorem mem_of_tail (h : Buffers s r ts) {i n : Nat} (ht : (⟨.tail id, i, n⟩ : Tile) ∈ ts) : id ∈ r.registered := by
  apply Classical.byContradiction
  intro hid
  rcases h.fits id with ⟨-, -, h3⟩ | ⟨h1, -⟩
  · exact h3 i n ht
  · rw [h.unregistered id hid] at h1
    cases h1

theorem register (h : Buffers s r ts) : Buffers s r.register.2 ts := by
  have hnew : r.buffers.size ∉ r.registered := fun hm => Nat.lt_irrefl _ (h.known _ hm)
  refine ⟨?_, ?_, ?_, ?_, ?_⟩
  · rw [TlabRegistry.register, ← List.concat_eq_append]
    exact .concat hnew h.nodup
  · intro id hid
    rw [TlabRegistry.register, List.mem_append, List.mem_singleton] at hid
    simp only [TlabRegistry.register, Array.size_push]
    rcases hid with hid | rfl
    · exact Nat.lt_succ_of_lt (h.known id hid)
    · exact Nat.lt_succ_self _
  · intro id hid
    rw [TlabRegistry.get_register]
    exact h.unregistered id fun hm => hid (by simp [TlabRegistry.register, hm])
  · intro id
    rw [TlabRegistry.get_register]
    exact h.fits id
  · intro id
    rw [TlabRegistry.get_register]
    exact h.metered id

theorem unregister (h : Buffers s r ts) (hempty : (r.get id).isEmpty = true) : Buffers s (r.unregister id) ts := by
  refine ⟨h.nodup.filter _, fun id' hid => h.known id' (List.mem_filter.1 hid).1, ?_, h.fits, h.metered⟩
  intro id' hid
  by_cases he : id' = id
  · exact he ▸ hempty
  · exact h.unregistered id' fun hm => hid (List.mem_filter.2 ⟨hm, by simpa using he⟩)

end Buffers

/-! ## The whole heap -/

/-- A header can count the words of a tile that was handed out and has none yet. -/
def Tile.Countable (t : Tile) (s : Space) : Prop :=
  t.kind ≠ .free → t.kind ≠ .object → t.count * s.granuleWords < Header.sizeLimit

theorem Tile.Countable.congr {s s' : Space} {t : Tile} (h : t.Countable s) (hg : s.SameGrid s') : t.Countable s' := by
  unfold Tile.Countable
  rw [hg.2]
  exact h

/-- The tiles describe the space, the memory and the buffers. -/
structure Mapped (s : Space) (m : Memory) (r : TlabRegistry) (ts : List Tile) : Prop where
  tiled : s.Tiled ts
  headed : ∀ t ∈ ts, t.kind = .object → s.Headed m t
  buffers : Buffers s r ts
  countable : ∀ t ∈ ts, t.Countable s

/-- The objects of `ts` are still there, with all their words. -/
def Keeps (s : Space) (m : Memory) (ts : List Tile) (m' : Memory) (ts' : List Tile) : Prop :=
  ∀ t ∈ ts, t.kind = .object → t ∈ ts' ∧ m.SameOn m' (s.wordAt t.first) (s.wordAt t.stop)

theorem Keeps.refl (s : Space) (m : Memory) (ts : List Tile) : Keeps s m ts m ts := fun _ ht _ => ⟨ht, .refl _ _ _⟩

theorem Keeps.trans {s : Space} {m m' m'' : Memory} {ts ts' ts'' : List Tile} (h : Keeps s m ts m' ts')
    (h' : Keeps s m' ts' m'' ts'') : Keeps s m ts m'' ts'' := by
  intro t ht hk
  obtain ⟨h1, h2⟩ := h t ht hk
  obtain ⟨h3, h4⟩ := h' t h1 hk
  exact ⟨h3, h2.trans h4⟩

/-- The objects of `P` are still there, with all their words. -/
def Spares (s : Space) (m : Memory) (ts : List Tile) (m' : Memory) (ts' : List Tile) (P : Address → Prop) : Prop :=
  ∀ t ∈ ts, t.kind = .object → P (s.address t.first) → t ∈ ts' ∧ m.SameOn m' (s.wordAt t.first) (s.wordAt t.stop)

theorem Keeps.spares {s : Space} {m m' : Memory} {ts ts' : List Tile} (h : Keeps s m ts m' ts') (P : Address → Prop) :
    Spares s m ts m' ts' P := fun t ht hk _ => h t ht hk

namespace Mapped

variable {s s' : Space} {m m' : Memory} {r r' : TlabRegistry} {ts pre post us : List Tile} {t : Tile}

theorem sameOn_of_ne (h : s.Tiled ts) (ht : t ∈ ts) (hm : m.SameBut m' (s.wordAt t.first) (s.wordAt t.stop))
    {u : Tile} (hu : u ∈ ts) (hne : u ≠ t) : m.SameOn m' (s.wordAt u.first) (s.wordAt u.stop) := by
  rcases h.tiling.apart hu ht hne with hap | hap
  · exact hm.sameOn (.inr (s.wordAt_mono hap))
  · exact hm.sameOn (.inl (s.wordAt_mono hap))

/-- **One tile that is no object is put to another use.**  Only its own words may change. -/
theorem replace (h : Mapped s m r (pre ++ t :: post)) (ht : t.kind ≠ .object) (hs : s'.Tiled (pre ++ (us ++ post)))
    (hg : s.SameGrid s') (hm : m.SameBut m' (s.wordAt t.first) (s.wordAt t.stop))
    (hhead : ∀ u ∈ us, u.kind = .object → s.Headed m' u) (hcount : ∀ u ∈ us, u.Countable s)
    (hb : Buffers s' r' (pre ++ (us ++ post))) :
    Mapped s' m' r' (pre ++ (us ++ post)) ∧ Keeps s m (pre ++ t :: post) m' (pre ++ (us ++ post)) := by
  have hkeeps : Keeps s m (pre ++ t :: post) m' (pre ++ (us ++ post)) := by
    intro u hu hk
    have hne : u ≠ t := fun he => ht (he ▸ hk)
    refine ⟨?_, sameOn_of_ne h.tiled (by simp) hm hu hne⟩
    simp only [List.mem_append, List.mem_cons] at hu ⊢
    rcases hu with hu | rfl | hu
    · exact .inl hu
    · exact absurd rfl hne
    · exact .inr (.inr hu)
  have hcases {u : Tile} (hu : u ∈ pre ++ (us ++ post)) : u ∈ us ∨ u ∈ pre ++ t :: post := by
    simp only [List.mem_append, List.mem_cons] at hu ⊢
    rcases hu with hu | hu | hu
    · exact .inr (.inl hu)
    · exact .inl hu
    · exact .inr (.inr (.inr hu))
  refine ⟨⟨hs, fun u hu hk => hg.headed ?_, hb, fun u hu => ?_⟩, hkeeps⟩
  · rcases hcases hu with hu | hu
    · exact hhead u hu hk
    · exact (h.headed u hu hk).congr h.tiled.toRegular (h.tiled.count_pos hu) (hkeeps u hu hk).2
  · rcases hcases hu with hu | hu
    · exact (hcount u hu).congr hg
    · exact (h.countable u hu).congr hg

theorem mem_replace_iff {u : Tile} (ht : u ≠ t) (hus : u ∉ us) : u ∈ pre ++ (us ++ post) ↔ u ∈ pre ++ t :: post := by
  simp only [List.mem_append, List.mem_cons]
  constructor
  · rintro (hu | hu | hu)
    · exact .inl hu
    · exact absurd hu hus
    · exact .inr (.inr hu)
  · rintro (hu | rfl | hu)
    · exact .inl hu
    · exact absurd rfl ht
    · exact .inr (.inr hu)

end Mapped

end MarkSweep
