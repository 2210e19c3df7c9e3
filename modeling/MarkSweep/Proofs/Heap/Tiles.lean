import MarkSweep.Proofs.Heap.Mapped
/-!
# What allocation and retirement do to the tiles

Words that are granted are a raw tile first: `Mapped.allocate` carves it from a free tile and `Mapped.bump` from the tail
of a buffer, and `Mapped.cut` is what the two have in common.  It ends as an object (`Mapped.found`) or as the tail of a buffer (`Mapped.install`); a tail ends as a
filler (`Mapped.retire`).
-/
namespace MarkSweep

/-- No words are granted and not formatted. -/
def Settled (ts : List Tile) : Prop := ∀ t ∈ ts, t.kind ≠ .raw

theorem Settled.insert {pre post : List Tile} {t : Tile} (h : Settled (pre ++ post)) (ht : t.kind ≠ .raw) :
    Settled (pre ++ t :: post) := by
  intro u hu
  simp only [List.mem_append, List.mem_cons] at hu
  rcases hu with hu | rfl | hu
  · exact h u (by simp [hu])
  · exact ht
  · exact h u (by simp [hu])

namespace Mapped

open Space.Tiled (carved leftover mem_leftover kind_of_mem_leftover)

variable {s : Space} {m : Memory} {r : TlabRegistry} {ts pre post : List Tile} {id : TlabId} {k n : Nat}

theorem pos (h : Mapped s m r (pre ++ ⟨kind, k, n⟩ :: post)) : 0 < n := h.tiled.count_pos (t := ⟨kind, k, n⟩) (by simp)

theorem stop_le (h : Mapped s m r (pre ++ ⟨kind, k, n⟩ :: post)) : k + n ≤ s.granules :=
  h.tiled.stop_le (t := ⟨kind, k, n⟩) (by simp)

theorem words_lt {kind : TileKind} (h : Mapped s m r (pre ++ ⟨kind, k, n⟩ :: post)) (hfree : kind ≠ .free)
    (hobject : kind ≠ .object) : n * s.granuleWords < Header.sizeLimit :=
  h.countable ⟨kind, k, n⟩ (by simp) hfree hobject

/-! ## Carving -/

/-- The tails of the other buffers are where they were. -/
theorem tail_mem_cut {t : Tile} (hk : t.kind ≠ .tail id) (i c : Nat) :
    (⟨.tail id, i, c⟩ : Tile) ∈ pre ++ (carved t n ++ post) ↔ (⟨.tail id, i, c⟩ : Tile) ∈ pre ++ t :: post := by
  refine mem_replace_iff (fun he => hk (he ▸ rfl)) fun hu => ?_
  rcases List.mem_cons.1 hu with he | hu
  · injection he with hkind
    cases hkind
  · exact hk (kind_of_mem_leftover hu).symm

/-- **The first granules of a tile become a raw tile**, and the rest stays what it was. -/
theorem cut {s' : Space} {r' : TlabRegistry} {t : Tile} (h : Mapped s m r (pre ++ t :: post)) (hobject : t.kind ≠ .object)
    (hraw : t.kind ≠ .raw) (hs : s'.Tiled (pre ++ (carved t n ++ post))) (hg : s.SameGrid s')
    (hcount : n * s.granuleWords < Header.sizeLimit) (hb : Buffers s' r' (pre ++ (carved t n ++ post))) :
    Mapped s' m r' (pre ++ ⟨.raw, t.first, n⟩ :: (leftover t n ++ post)) ∧
      Keeps s m (pre ++ t :: post) m (pre ++ ⟨.raw, t.first, n⟩ :: (leftover t n ++ post)) ∧
      ∀ u ∈ pre ++ (leftover t n ++ post), u.kind = .raw → u ∈ pre ++ t :: post := by
  have hnone : ∀ u ∈ carved t n, u.kind ≠ .object := by
    intro u hu
    rcases List.mem_cons.1 hu with rfl | hu
    · simp
    · rwa [kind_of_mem_leftover hu]
  -- the grant and what is left have no more words than a header can count
  have hcounts : ∀ u ∈ carved t n, u.Countable s := by
    intro u hu hfree hobj
    rcases List.mem_cons.1 hu with rfl | hu
    · exact hcount
    · obtain ⟨-, rfl⟩ := mem_leftover.1 hu
      exact Nat.lt_of_le_of_lt (Nat.mul_le_mul_right _ (Nat.sub_le _ _)) (h.countable t (by simp) hfree hobj)
  obtain ⟨hmapped, hkeeps⟩ :=
    h.replace hobject hs hg (fun _ _ => rfl) (fun u hu hk => absurd hk (hnone u hu)) hcounts hb
  refine ⟨hmapped, hkeeps, fun u hu hk => ?_⟩
  simp only [List.mem_append, List.mem_cons] at hu ⊢
  rcases hu with hu | hu | hu
  · exact .inl hu
  · exact absurd ((kind_of_mem_leftover hu).symm.trans hk) hraw
  · exact .inr (.inr hu)

/-- **Allocation makes words of a free tile a raw tile**, or finds no free tile that is large enough. -/
theorem allocate (h : Mapped s m r ts) {words : Nat} (hwords : s.Countable words) :
    (s.allocate words = .ok (none, s) ∧
      (s.canFit words = true → ∀ u ∈ freeTiles ts, u.count < s.granulesFor words)) ∨
    ∃ s' pre k post, s.allocate words = .ok (some (s.address k), s') ∧ s.SameGrid s' ∧ s.canFit words = true ∧
      Mapped s' m r (pre ++ ⟨.raw, k, s.granulesFor words⟩ :: post) ∧
      Keeps s m ts m (pre ++ ⟨.raw, k, s.granulesFor words⟩ :: post) ∧
      ∀ u ∈ pre ++ post, u.kind = .raw → u ∈ ts := by
  rcases h.tiled.allocate_spec words with hnone | ⟨pre, t, post, s', rfl, ht, -, -, hfit, hrun, hs, hg⟩
  · exact .inl hnone
  have hfree : t.kind = .free := ht
  have hb : Buffers s' r (pre ++ (carved t (s.granulesFor words) ++ post)) :=
    h.buffers.congr hg fun id => tail_mem_cut (by rw [hfree]; simp)
  exact .inr ⟨s', pre, t.first, leftover t (s.granulesFor words) ++ post, hrun, hg, hfit,
    h.cut (by rw [hfree]; decide) (by rw [hfree]; decide) hs hg (hwords (by simpa [Space.canFit] using hfit)) hb⟩

/-! ## Giving a use to raw words -/

theorem mem_replace_one {t u v : Tile} (ht : u ≠ t) (hv : u ≠ v) : u ∈ pre ++ v :: post ↔ u ∈ pre ++ t :: post :=
  show u ∈ pre ++ ([v] ++ post) ↔ u ∈ pre ++ t :: post from mem_replace_iff ht (by simpa using hv)

theorem tiled_replace_one {kind kind' : TileKind} (h : Mapped s m r (pre ++ ⟨kind, k, n⟩ :: post))
    (hk : kind ≠ .free) (hk' : kind' ≠ .free) : s.Tiled (pre ++ ([⟨kind', k, n⟩] ++ post)) :=
  h.tiled.replace hk (by simp)
    (fun u hu => by rw [List.mem_singleton] at hu; rw [hu]; exact hk') ⟨rfl, h.pos, rfl⟩

/-- Words in use become an object once they start with a header that rounds up to them. -/
theorem place {kind : TileKind} {r' : TlabRegistry} {m' : Memory} (h : Mapped s m r (pre ++ ⟨kind, k, n⟩ :: post))
    (hfree : kind ≠ .free) (hobject : kind ≠ .object) (hbut : m.SameBut m' (s.wordAt k) (s.wordAt (k + n)))
    (hhead : s.Headed m' ⟨.object, k, n⟩) (hb : Buffers s r' (pre ++ ⟨.object, k, n⟩ :: post)) :
    Mapped s m' r' (pre ++ ⟨.object, k, n⟩ :: post) ∧
      Keeps s m (pre ++ ⟨kind, k, n⟩ :: post) m' (pre ++ ⟨.object, k, n⟩ :: post) := by
  refine h.replace hobject (h.tiled_replace_one hfree (by decide)) (.refl s) hbut ?_ ?_ hb
  · intro u hu _
    rw [List.mem_singleton] at hu
    exact hu ▸ hhead
  · intro u hu _ hk
    rw [List.mem_singleton] at hu
    exact absurd (congrArg Tile.kind hu) hk

/-- A header written over words in use changes these words alone, and rounds up to them. -/
theorem headed_write {kind : TileKind} (h : Mapped s m r (pre ++ ⟨kind, k, n⟩ :: post)) (hfree : kind ≠ .free)
    (hobject : kind ≠ .object) {words : Nat} (hwords : s.granulesFor words = n) (refs flags : Nat) :
    m.SameBut (Object.write m (s.address k) words refs flags) (s.wordAt k) (s.wordAt (k + n)) ∧
      s.Headed (Object.write m (s.address k) words refs flags) ⟨.object, k, n⟩ := by
  have hle : words ≤ n * s.granuleWords := hwords ▸ s.words_le_granulesFor words h.tiled.granule_pos
  constructor
  · rw [s.wordAt_add, ← h.tiled.address_div_eq]
    exact Object.sameBut_write m refs flags (Nat.mul_pos h.pos h.tiled.granule_pos) hle
  · unfold Space.Headed Object.size
    rw [Object.header_write, Nat.mod_eq_of_lt (Nat.lt_of_le_of_lt hle (h.words_lt hfree hobject))]
    exact hwords

/-- **Granted words become an object.** -/
theorem found {m' : Memory} (h : Mapped s m r (pre ++ ⟨.raw, k, n⟩ :: post))
    (hbut : m.SameBut m' (s.wordAt k) (s.wordAt (k + n))) (hhead : s.Headed m' ⟨.object, k, n⟩) :
    Mapped s m' r (pre ++ ⟨.object, k, n⟩ :: post) ∧
      Keeps s m (pre ++ ⟨.raw, k, n⟩ :: post) m' (pre ++ ⟨.object, k, n⟩ :: post) :=
  h.place (by decide) (by decide) hbut hhead (h.buffers.congr (.refl s) fun id i c => mem_replace_one (by simp) (by simp))

/-- **Raw words become the tail of an empty buffer.** -/
theorem install (h : Mapped s m r (pre ++ ⟨.raw, k, n⟩ :: post)) (hlow : 0 < s.region.start) (hid : id ∈ r.registered)
    (hempty : (r.get id).isEmpty = true) :
    Mapped s m (r.set id ((r.get id).install (s.address k) (n * s.granuleWords))) (pre ++ ⟨.tail id, k, n⟩ :: post) ∧
      Keeps s m (pre ++ ⟨.raw, k, n⟩ :: post) m (pre ++ ⟨.tail id, k, n⟩ :: post) := by
  have hnone : ∀ i c, (⟨.tail id, i, c⟩ : Tile) ∉ pre ++ ⟨.raw, k, n⟩ :: post := by
    rcases h.buffers.fits id with ⟨-, -, h3⟩ | ⟨h1, -⟩
    · exact h3
    · rw [hempty] at h1
      cases h1
  have hfits : n * s.granuleWords ≤ s.region.wordSize := by
    rw [h.tiled.wordSize_eq]
    exact Nat.mul_le_mul_right _ (Nat.le_of_add_left_le h.stop_le)
  refine h.replace (by simp) (h.tiled_replace_one (by decide) (by simp)) (.refl s) (fun _ _ => rfl) ?_ ?_
    (h.buffers.set hid ?_ ((h.buffers.metered id).install _ hfits) fun id' i c hne => mem_replace_one (by simp) ?_)
  · intro u hu hk
    rw [List.mem_singleton] at hu
    rw [hu] at hk
    cases hk
  · intro u hu _ _
    rw [List.mem_singleton] at hu
    rw [hu]
    exact h.words_lt (by decide) (by decide)
  · have hstart : s.address k ≠ 0 := Nat.ne_of_gt (Space.address_pos hlow k)
    refine .inr ⟨by simpa [Tlab.isEmpty, Tlab.install] using hstart, k, k + n, by omega, h.stop_le, rfl,
      s.address_add_words k n, ?_⟩
    intro i c
    have hpos := h.pos
    have hold := hnone i c
    simp only [List.singleton_append, List.mem_append, List.mem_cons, Tile.mk.injEq, not_or] at hold ⊢
    constructor
    · rintro (hm | ⟨-, rfl, rfl⟩ | hm)
      · exact absurd hm hold.1
      · omega
      · exact absurd hm hold.2.2
    · rintro ⟨-, rfl, rfl⟩
      exact .inr (.inl ⟨trivial, rfl, by omega⟩)
  · intro he
    injection he with hk
    injection hk with hk
    exact hne hk

/-! ## Buffers -/

/-- Where the tail of a buffer lies. -/
theorem tail_cases (h : Mapped s m r ts) (id : TlabId) :
    ((r.get id).freeWords = 0 ∧ ∀ i c, (⟨.tail id, i, c⟩ : Tile) ∉ ts) ∨
    ∃ pre k n post, ts = pre ++ ⟨.tail id, k, n⟩ :: post ∧ (r.get id).isEmpty = false ∧ (r.get id).top = s.address k ∧
      (r.get id).stop = s.address (k + n) ∧ (r.get id).freeWords = n * s.granuleWords ∧
      ∀ i c, (⟨.tail id, i, c⟩ : Tile) ∉ pre ++ post := by
  rcases h.buffers.fits id with ⟨-, h2, h3⟩ | ⟨h1, i, j, hij, hj, htop, hstop, htail⟩
  · left
    refine ⟨?_, h3⟩
    rw [Tlab.freeWords, h2, Nat.sub_self, Nat.zero_div]
  · have hfree : (r.get id).freeWords = (j - i) * s.granuleWords := by
      rw [Tlab.freeWords, htop, hstop, Space.words_between]
    by_cases hlt : i < j
    · right
      obtain ⟨pre, post, rfl⟩ := List.append_of_mem ((htail i (j - i)).2 ⟨hlt, rfl, rfl⟩)
      refine ⟨pre, i, j - i, post, rfl, h1, htop, by rw [hstop, Nat.add_sub_cancel' hij], hfree, ?_⟩
      intro i' c hm
      obtain ⟨hpre, hpost⟩ := h.tiled.tiling.not_mem_around
      have hold : (⟨.tail id, i', c⟩ : Tile) ∈ pre ++ ⟨.tail id, i, j - i⟩ :: post := by
        simp only [List.mem_append, List.mem_cons] at hm ⊢
        exact hm.imp (fun hm => hm) .inr
      obtain ⟨-, rfl, rfl⟩ := (htail i' c).1 hold
      rcases List.mem_append.1 hm with hm | hm
      · exact hpre hm
      · exact hpost hm
    · left
      refine ⟨?_, fun i' c hm => hlt ((htail i' c).1 hm).1⟩
      rw [hfree, Nat.sub_eq_zero_of_le (by omega), Nat.zero_mul]

/-- A buffer that granted the first granules of its tail has what is left of the tail. -/
theorem fits_cut {t : Tlab} {c : Nat} (h : Mapped s m r (pre ++ ⟨.tail id, k, c⟩ :: post))
    (hother : ∀ i d, (⟨.tail id, i, d⟩ : Tile) ∉ pre ++ post) (hle : n ≤ c) (hne : t.isEmpty = false)
    (htop : t.top = s.address (k + n)) (hstop : t.stop = s.address (k + c)) :
    Fits s (pre ++ (carved ⟨.tail id, k, c⟩ n ++ post)) id t := by
  refine .inr ⟨hne, k + n, k + c, Nat.add_le_add_left hle k, h.stop_le, htop, hstop, fun i d => ?_⟩
  obtain ⟨hpre, hpost⟩ := not_or.1 (mt List.mem_append.2 (hother i d))
  simp only [carved, List.mem_append, List.mem_cons, mem_leftover, hpre, hpost, Tile.mk.injEq, reduceCtorEq, false_and,
    true_and, false_or, or_false]
  omega

/-- **Granting words of a buffer makes the low end of its tail a raw tile.** -/
theorem bump (h : Mapped s m r ts) (id : TlabId) (hn : 0 < n) :
    (r.get id).allocate (n * s.granuleWords) = none ∨
    ∃ pre k post t, (r.get id).allocate (n * s.granuleWords) = some (s.address k, t) ∧ id ∈ r.registered ∧
      (r.get id).SameRange t ∧ Mapped s m (r.set id t) (pre ++ ⟨.raw, k, n⟩ :: post) ∧
      Keeps s m ts m (pre ++ ⟨.raw, k, n⟩ :: post) ∧ ∀ u ∈ pre ++ post, u.kind = .raw → u ∈ ts := by
  have hg := h.tiled.granule_pos
  rcases h.tail_cases id with ⟨hzero, -⟩ | ⟨pre, k, c, post, rfl, hne, htop, hstop, hfree, hother⟩
  · left
    rw [Tlab.allocate, hzero, if_pos (Nat.mul_pos hn hg)]
  by_cases hlt : c * s.granuleWords < n * s.granuleWords
  · left
    rw [Tlab.allocate, hfree, if_pos hlt]
  right
  have hle : n ≤ c := Nat.le_of_mul_le_mul_right (Nat.le_of_not_lt hlt) hg
  have hid : id ∈ r.registered := h.buffers.mem_of_tail (i := k) (n := c) (by simp)
  have hrun := Tlab.allocate_of_le (t := r.get id) (hfree ▸ Nat.le_of_not_lt hlt)
  rw [htop] at hrun
  have hfits := h.fits_cut (t := { r.get id with
    top := s.address k + n * s.granuleWords * wordBytes
    allocatedWords := (r.get id).allocatedWords + n * s.granuleWords }) hother hle hne (s.address_add_words k n) hstop
  have hb := h.buffers.set hid hfits ((h.buffers.metered id).allocate hrun) fun id' i d hne' =>
    tail_mem_cut (by simpa using Ne.symm hne') i d
  have hs : s.Tiled (pre ++ (carved ⟨.tail id, k, c⟩ n ++ post)) := by
    refine h.tiled.replace (by simp [Tile.IsFree]) (by simp [carved]) (fun u hu hf => ?_)
      (Space.Tiled.tiling_carved (t := ⟨.tail id, k, c⟩) hn hle)
    rcases List.mem_cons.1 hu with rfl | hu
    · cases hf
    · cases (kind_of_mem_leftover hu).symm.trans hf
  have hcount := Nat.lt_of_le_of_lt (Nat.mul_le_mul_right s.granuleWords hle) (h.words_lt (by simp) (by simp))
  exact ⟨pre, k, _, _, hrun, hid, ⟨rfl, rfl, rfl⟩, h.cut (by simp) (by simp) hs (.refl s) hcount hb⟩

/-! ## Retirement -/

end Mapped

/-- A buffer once it was retired. -/
def Tlab.emptied (t : Tlab) : Tlab := if t.isEmpty then t else { t with start := 0, top := 0, stop := 0 }

namespace Tlab

@[simp] theorem isEmpty_emptied (t : Tlab) : t.emptied.isEmpty = true := by
  unfold emptied
  split
  · assumption
  · rfl

@[simp] theorem refills_emptied (t : Tlab) : t.emptied.refills = t.refills := by
  unfold emptied
  split <;> rfl

theorem emptied_of_isEmpty {t : Tlab} (h : t.isEmpty = true) : t.emptied = t := if_pos h

theorem Metered.emptied {t : Tlab} {most : Nat} (h : t.Metered most) : t.emptied.Metered most := by
  unfold Tlab.emptied
  split
  · exact h
  · unfold Metered freeWords
    rw [Nat.sub_self, Nat.zero_div]
    exact Nat.le_of_add_right_le h

end Tlab

/-- A tile once the buffers `ids` were retired: the tail of one of them carries a filler. -/
def Tile.retired (ids : List TlabId) (t : Tile) : Tile :=
  match t.kind with
  | .tail id => if id ∈ ids then { t with kind := .object } else t
  | _ => t

namespace Tile

variable {ids ids' : List TlabId} {t : Tile}

@[simp] theorem first_retired (ids : List TlabId) (t : Tile) : (t.retired ids).first = t.first := by
  unfold retired
  split
  · split <;> rfl
  · rfl

theorem isFree_retired : (t.retired ids).IsFree ↔ t.IsFree := by
  unfold retired IsFree
  split
  · next id hk => split <;> simp [hk]
  · rfl

theorem retired_eq_self (h : ∀ id ∈ ids, t.kind ≠ .tail id) : t.retired ids = t := by
  unfold retired
  split
  · next id hk => exact if_neg fun hid => h id hid hk
  · rfl

theorem retired_tail {id : TlabId} (h : id ∈ ids) (hk : t.kind = .tail id) : t.retired ids = { t with kind := .object } := by
  unfold retired
  rw [hk]
  exact if_pos h

theorem retired_retired (ids ids' : List TlabId) (t : Tile) : (t.retired ids).retired ids' = t.retired (ids ++ ids') := by
  obtain ⟨kind, k, n⟩ := t
  cases kind with
  | tail id => by_cases h : id ∈ ids <;> simp [retired, h]
  | free | object | raw => rfl

end Tile

theorem map_retired_eq_self {ids : List TlabId} {ts : List Tile} (h : ∀ id ∈ ids, ∀ i c, (⟨.tail id, i, c⟩ : Tile) ∉ ts) :
    ts.map (Tile.retired ids) = ts := by
  refine (List.map_congr_left ?_).trans (List.map_id' ts)
  rintro ⟨kind, k, n⟩ ht
  exact Tile.retired_eq_self fun id hid (hk : kind = .tail id) => h id hid k n (hk ▸ ht)

theorem Settled.retired {ts : List Tile} (h : Settled ts) (ids : List TlabId) : Settled (ts.map (Tile.retired ids)) := by
  intro u hu
  obtain ⟨⟨kind, k, n⟩, ht, rfl⟩ := List.mem_map.1 hu
  cases kind with
  | tail id => by_cases hid : id ∈ ids <;> simp [Tile.retired, hid]
  | free | object => simp [Tile.retired]
  | raw => exact absurd rfl (h _ ht)

/-- The tiles in use begin where they did. -/
theorem starts_retired (s : Space) (ids : List TlabId) (ts : List Tile) :
    (usedTiles (ts.map (Tile.retired ids))).map (fun t => s.address t.first) =
      (usedTiles ts).map fun t => s.address t.first := by
  unfold usedTiles
  rw [List.filter_map, List.map_map]
  have hfree : ((fun t : Tile => !decide t.IsFree) ∘ Tile.retired ids) = fun t : Tile => !decide t.IsFree := by
    funext t
    simp [Tile.isFree_retired]
  rw [hfree]
  exact List.map_congr_left fun t _ => by simp

/-- **The buffers `ids` were retired**: they are empty, and their tails carry fillers. -/
structure Retired (s : Space) (m : Memory) (r : TlabRegistry) (ts : List Tile) (ids : List TlabId) (m' : Memory)
    (r' : TlabRegistry) : Prop where
  mapped : Mapped s m' r' (ts.map (Tile.retired ids))
  keeps : Keeps s m ts m' (ts.map (Tile.retired ids))
  registered : r'.registered = r.registered
  buffers : ∀ id, r'.get id = if id ∈ ids then (r.get id).emptied else r.get id
  words : ∀ i, m'.word i ≠ m.word i →
    ∃ id ∈ ids, ∃ k n, (⟨.tail id, k, n⟩ : Tile) ∈ ts ∧ s.wordAt k ≤ i ∧ i < s.wordAt (k + n)

namespace Retired

variable {s : Space} {m m' m'' : Memory} {r r' r'' : TlabRegistry} {ts : List Tile} {ids ids' : List TlabId}

theorem none (h : Mapped s m r ts) : Retired s m r ts [] m r := by
  have hts : ts.map (Tile.retired []) = ts := map_retired_eq_self fun id hid => by cases hid
  exact ⟨by rwa [hts], by rw [hts]; exact .refl _ _ _, rfl, fun _ => rfl, fun _ hne => absurd rfl hne⟩

theorem trans (a : Retired s m r ts ids m' r') (b : Retired s m' r' (ts.map (Tile.retired ids)) ids' m'' r'') :
    Retired s m r ts (ids ++ ids') m'' r'' := by
  have hts : (ts.map (Tile.retired ids)).map (Tile.retired ids') = ts.map (Tile.retired (ids ++ ids')) := by
    rw [List.map_map]
    exact List.map_congr_left fun t _ => t.retired_retired ids ids'
  refine ⟨hts ▸ b.mapped, hts ▸ a.keeps.trans b.keeps, b.registered.trans a.registered, ?_, ?_⟩
  · intro id
    rw [b.buffers, a.buffers]
    by_cases h : id ∈ ids <;> by_cases h' : id ∈ ids' <;> simp [h, h', Tlab.emptied_of_isEmpty]
  · intro i hne
    by_cases h : m'.word i = m.word i
    · obtain ⟨id, hid, k, n, htail, hi⟩ := b.words i (by rwa [h])
      obtain ⟨⟨kind, k', n'⟩, ht, he⟩ := List.mem_map.1 htail
      -- what is a tail afterwards was the same tail before
      have hsame : (⟨kind, k', n'⟩ : Tile) = ⟨.tail id, k, n⟩ := by
        cases kind with
        | tail id' => by_cases hid' : id' ∈ ids <;> simp_all [Tile.retired]
        | free | object | raw => exact he
      exact ⟨id, List.mem_append_right _ hid, k, n, hsame ▸ ht, hi⟩
    · obtain ⟨id, hid, hk⟩ := a.words i h
      exact ⟨id, List.mem_append_left _ hid, hk⟩

theorem refills (h : Retired s m r ts ids m' r') (id : TlabId) : (r'.get id).refills = (r.get id).refills := by
  rw [h.buffers]
  split
  · exact Tlab.refills_emptied _
  · rfl

theorem isEmpty (h : Retired s m r ts ids m' r') {id : TlabId} (hid : id ∈ ids) : (r'.get id).isEmpty = true := by
  rw [h.buffers, if_pos hid]
  exact Tlab.isEmpty_emptied _

end Retired

namespace Mapped

variable {s : Space} {m : Memory} {r : TlabRegistry} {ts pre post : List Tile} {id : TlabId} {k n : Nat}

/-- **Retiring a buffer makes its tail a filler** and leaves it empty. -/
theorem retire (h : Mapped s m r ts) (hid : id ∈ r.registered) :
    ∃ m', r.retire m id = ((r.get id).freeWords, m', r.set id (r.get id).emptied) ∧
      Retired s m r ts [id] m' (r.set id (r.get id).emptied) := by
  have hbuffers : ∀ id', (r.set id (r.get id).emptied).get id' = if id' ∈ [id] then (r.get id').emptied else r.get id' := by
    intro id'
    rw [TlabRegistry.get_set (h.buffers.known id hid)]
    by_cases he : id' = id
    · subst he
      simp
    · simp [he]
  rcases h.tail_cases id with ⟨hzero, hnone⟩ | ⟨pre, k, n, post, rfl, hne, htop, hstop, hfree, hother⟩
  · have hts : ts.map (Tile.retired [id]) = ts :=
      map_retired_eq_self fun id' hid' => by rw [List.mem_singleton.1 hid']; exact hnone
    have hfits : Fits s ts id (r.get id).emptied := by
      refine .inl ⟨Tlab.isEmpty_emptied _, ?_, hnone⟩
      unfold Tlab.emptied
      split
      · next hempty =>
        rcases h.buffers.fits id with ⟨-, h2, -⟩ | ⟨h1, -⟩
        · exact h2
        · rw [hempty] at h1
          cases h1
      · rfl
    refine ⟨m, ?_, ?_, ?_, rfl, hbuffers, fun _ hne => absurd rfl hne⟩
    · cases hempty : (r.get id).isEmpty <;> simp [TlabRegistry.retire, Tlab.retire, Tlab.emptied, hempty, hzero]
    · rw [hts]
      exact ⟨h.tiled, h.headed, h.buffers.set hid hfits (h.buffers.metered id).emptied fun _ _ _ _ => .rfl, h.countable⟩
    · rw [hts]
      exact .refl _ _ _
  · have hwaste : 0 < n * s.granuleWords := Nat.mul_pos h.pos h.tiled.granule_pos
    have hts : (pre ++ ⟨.tail id, k, n⟩ :: post).map (Tile.retired [id]) = pre ++ ⟨.object, k, n⟩ :: post := by
      have hrest : (pre ++ post).map (Tile.retired [id]) = pre ++ post :=
        map_retired_eq_self fun id' hid' => by rw [List.mem_singleton.1 hid']; exact hother
      rw [List.map_append] at hrest
      obtain ⟨hpre, hpost⟩ := List.append_inj hrest (List.length_map _)
      rw [List.map_append, List.map_cons, hpre, hpost, Tile.retired_tail (List.mem_singleton_self id) rfl]
    have hempty : (r.get id).emptied = { r.get id with start := 0, top := 0, stop := 0 } := by simp [Tlab.emptied, hne]
    have hb : Buffers s (r.set id (r.get id).emptied) (pre ++ ⟨.object, k, n⟩ :: post) := by
      refine h.buffers.set hid (.inl ⟨Tlab.isEmpty_emptied _, by rw [hempty], ?_⟩) (h.buffers.metered id).emptied
        fun id' i c hne' => mem_replace_one ?_ (by simp)
      · intro i c hu
        have hold := hother i c
        simp only [List.mem_append, List.mem_cons, not_or, Tile.mk.injEq, reduceCtorEq, false_and, false_or] at hu hold
        rcases hu with hu | hu
        · exact hold.1 hu
        · exact hold.2 hu
      · simpa using fun he _ => absurd he hne'
    obtain ⟨hbut, hhead⟩ :=
      h.headed_write (by simp) (by simp) (s.granulesFor_mul h.tiled.granule_pos h.pos) 0 Header.fillerFlag
    obtain ⟨h1, h2⟩ := h.place (by simp) (by simp) hbut hhead hb
    refine ⟨_, ?_, hts ▸ h1, hts ▸ h2, rfl, hbuffers, fun i hi => ?_⟩
    · simp [TlabRegistry.retire, Tlab.retire, hne, hfree, hwaste, htop, Object.fill, hempty]
    · refine ⟨id, List.mem_singleton_self id, k, n, by simp, Classical.not_not.1 fun hout => hi (hbut i hout)⟩

theorem retireMany : ∀ (ids : List TlabId) (total : Nat) {m : Memory} {r : TlabRegistry} {ts : List Tile},
    Mapped s m r ts → (∀ id ∈ ids, id ∈ r.registered) → ids.Nodup →
      ∃ m' r', ids.foldl (fun (total, m, r) id =>
          let (waste, m, r) := TlabRegistry.retire r m id
          (total + waste, m, r)) (total, m, r) = (total + (ids.map fun id => (r.get id).freeWords).sum, m', r') ∧
        Retired s m r ts ids m' r'
  | [], total, m, r, ts, h, _, _ => ⟨m, r, rfl, .none h⟩
  | id :: ids, total, m, r, ts, h, hreg, hnd => by
    obtain ⟨hnot, hnd⟩ := List.nodup_cons.1 hnd
    obtain ⟨m1, hrun, h1⟩ := h.retire (hreg id (by simp))
    obtain ⟨m2, r2, hrun2, h2⟩ :=
      retireMany ids (total + (r.get id).freeWords) h1.mapped (fun id' h' => hreg id' (by simp [h'])) hnd
    have hsame : ids.map (fun id' => ((r.set id (r.get id).emptied).get id').freeWords) =
        ids.map fun id' => (r.get id').freeWords := by
      apply List.map_congr_left
      intro id' h'
      rw [h1.buffers, if_neg fun he : id' ∈ [id] => hnot (List.mem_singleton.1 he ▸ h')]
    refine ⟨m2, r2, ?_, h1.trans h2⟩
    simp only [List.foldl_cons, hrun]
    rw [hrun2, hsame, List.map_cons, List.sum_cons, Nat.add_assoc]

/-- **Retiring all buffers** makes every tail a filler. -/
theorem retireAll (h : Mapped s m r ts) :
    ∃ m' r', r.retireAll m = ((r.registered.map fun id => (r.get id).freeWords).sum, m', r') ∧
      Retired s m r ts r.registered m' r' := by
  obtain ⟨m', r', hrun, hret⟩ := retireMany r.registered 0 h (fun _ hid => hid) h.buffers.nodup
  refine ⟨m', r', ?_, hret⟩
  unfold TlabRegistry.retireAll
  rw [hrun, Nat.zero_add]

end Mapped

namespace Retired

variable {s : Space} {m m' : Memory} {r r' : TlabRegistry} {ts : List Tile}

/-- Where all buffers were retired, every buffer is empty. -/
theorem all_empty (h : Retired s m r ts r.registered m' r') (id : TlabId) : (r'.get id).isEmpty = true := by
  by_cases hid : id ∈ r.registered
  · exact h.isEmpty hid
  · exact h.mapped.buffers.unregistered id (by rwa [h.registered])

/-- Where all buffers were retired, every tile is free or starts with a header. -/
theorem clean (h : Retired s m r ts r.registered m' r') (hset : Settled ts) :
    ∀ u ∈ ts.map (Tile.retired r.registered), u.kind = .free ∨ u.kind = .object := by
  rintro ⟨kind, i, c⟩ hu
  cases kind with
  | free => exact .inl rfl
  | object => exact .inr rfl
  | raw => exact absurd rfl (hset.retired r.registered _ hu)
  | tail id =>
    rcases h.mapped.buffers.fits id with ⟨-, -, h3⟩ | ⟨h1, -⟩
    · exact absurd hu (h3 i c)
    · rw [h.all_empty id] at h1
      cases h1

end Retired

end MarkSweep
