import MarkSweep.Proofs.Heap.Stopped
import MarkSweep.Proofs.Heap.Tiles
import MarkSweep.Proofs.Marking
/-!
# What holds of a heap between operations

`Heap.Sound h ts` is the invariant: the tiles describe the heap, and mutators, safepoint, liveness bitmap and narrow
encoding belong to it.  What the program may rely on is `Closed`: a set of objects that lead to no others, among which
all roots are (`Rooted`).
-/
namespace MarkSweep
namespace Heap

/-- What the registered root slots and the mutators hold. -/
def rootReferences (h : Heap) : List Reference :=
  h.roots.sources.flatMap (fun s => h.roots.references s.2) ++ h.mutators.flatMap fun m => m.roots.references

/-- The addresses that the registered root slots and the mutators refer to. -/
def rootTargets (h : Heap) : List Address := h.rootReferences.filterMap fun r => (r.load h.encoding).toOption

def Live (h : Heap) (a : Address) : Prop := Reachable h.memory h.encoding h.rootTargets a

theorem mem_rootTargets {h : Heap} {a : Address} :
    a ∈ h.rootTargets ↔ ∃ r ∈ h.rootReferences, r.load h.encoding = .ok a := by
  unfold rootTargets
  rw [List.mem_filterMap]
  refine exists_congr fun r => and_congr_right ?_
  intro _
  cases r.load h.encoding <;> simp [Except.toOption]

/-- The largest buffer there is.  One granule is the least that can be carved, also where the settings ask for less. -/
def largestTlab (h : Heap) : Nat := max h.maxTlabWords h.space.granuleWords

/-- The liveness bitmap, the narrow encoding and the largest buffer belong to the region. -/
structure Framed (h : Heap) : Prop where
  nonempty : 0 < h.space.granules
  start_pos : 0 < h.space.region.start
  covered : h.live.covered = h.space.region
  bit_bytes : h.live.granuleBytes = h.space.granuleBytes
  map_words : h.space.granules ≤ h.live.mapWords * mapWordBits
  encoding : h.encoding = ⟨h.space.region.start - h.space.granuleBytes, h.space.granuleBytes.log2⟩
  granule_pow : h.space.granuleBytes = 2 ^ h.space.granuleBytes.log2
  max_tlab : h.maxTlabWords ≤ h.space.region.wordSize
  max_tlab_dvd : h.space.granuleWords ∣ h.maxTlabWords

theorem Framed.congr {h h' : Heap} (hf : h.Framed) (hspace : h'.space = h.space) (hlive : h'.live = h.live)
    (hencoding : h'.encoding = h.encoding) (hmax : h'.maxTlabWords = h.maxTlabWords) : h'.Framed := by
  constructor
  all_goals rw [hspace]
  · exact hf.nonempty
  · exact hf.start_pos
  · exact hlive ▸ hf.covered
  · exact hlive ▸ hf.bit_bytes
  · exact hlive ▸ hf.map_words
  · exact hencoding ▸ hf.encoding
  · exact hf.granule_pow
  · exact hmax ▸ hf.max_tlab
  · exact hmax ▸ hf.max_tlab_dvd

/-- What no operation on a heap changes. -/
structure SameFrame (h h' : Heap) : Prop where
  grid : h.space.SameGrid h'.space
  covered : h'.live.covered = h.live.covered
  bit_bytes : h'.live.granuleBytes = h.live.granuleBytes
  map_words : h'.live.mapWords = h.live.mapWords
  encoding : h'.encoding = h.encoding
  max_tlab : h'.maxTlabWords = h.maxTlabWords
  settings : h'.settings = h.settings
  roots : h'.roots = h.roots
  granted : h'.granted = h.granted

namespace SameFrame

variable {h h' h'' : Heap}

theorem refl (h : Heap) : h.SameFrame h := ⟨.refl _, rfl, rfl, rfl, rfl, rfl, rfl, rfl, rfl⟩

theorem trans (a : h.SameFrame h') (b : h'.SameFrame h'') : h.SameFrame h'' :=
  ⟨a.grid.trans b.grid, b.covered.trans a.covered, b.bit_bytes.trans a.bit_bytes, b.map_words.trans a.map_words,
    b.encoding.trans a.encoding, b.max_tlab.trans a.max_tlab, b.settings.trans a.settings, b.roots.trans a.roots,
    b.granted.trans a.granted⟩

theorem framed (a : h.SameFrame h') (hf : h.Framed) : h'.Framed := by
  have hg := a.grid.granuleBytes
  refine ⟨?_, ?_, ?_, ?_, ?_, ?_, ?_, ?_, ?_⟩
  · rw [a.grid.granules]
    exact hf.nonempty
  · rw [a.grid.1]
    exact hf.start_pos
  · rw [a.covered, a.grid.1, hf.covered]
  · rw [a.bit_bytes, hg, hf.bit_bytes]
  · rw [a.grid.granules, a.map_words]
    exact hf.map_words
  · rw [a.encoding, hg, a.grid.1, hf.encoding]
  · rw [hg]
    exact hf.granule_pow
  · rw [a.max_tlab, a.grid.1]
    exact hf.max_tlab
  · rw [a.max_tlab, a.grid.2]
    exact hf.max_tlab_dvd

theorem largestTlab (a : h.SameFrame h') : h'.largestTlab = h.largestTlab := by
  rw [Heap.largestTlab, Heap.largestTlab, a.max_tlab, a.grid.2]

end SameFrame

/-- **The invariant of a heap.** -/
structure Sound (h : Heap) (ts : List Tile) : Prop where
  mapped : Mapped h.space h.memory h.tlabs ts
  framed : h.Framed
  mutators : h.MutatorsSound
  idle : h.safepoint.Idle h.mutators.length
  owners : (h.mutators.map (·.tlab)).Nodup
  owned : ∀ m ∈ h.mutators, m.tlab ∈ h.tlabs.registered
  sizes : ∀ m ∈ h.mutators, h.space.granuleWords ≤ m.tlabWords ∧ m.tlabWords ≤ h.largestTlab

/-- The roots beside the mutators, the system's grant and the log are no part of what the invariant speaks of. -/
theorem Sound.aside {h : Heap} {ts : List Tile} (hs : h.Sound ts) (roots : Roots) (granted : Bool) (log : Array Notice) :
    ({ h with roots, granted, log } : Heap).Sound ts :=
  ⟨hs.mapped, hs.framed.congr rfl rfl rfl rfl, ⟨hs.mutators.nodup, hs.mutators.issued⟩, hs.idle, hs.owners, hs.owned,
    hs.sizes⟩

/-! ## Objects that the program holds -/

/-- The objects of `P` lie in object tiles and refer to each other alone. -/
structure Closed (s : Space) (m : Memory) (e : NarrowEncoding) (ts : List Tile) (P : Address → Prop) : Prop where
  tile : ∀ x, P x → ∃ t ∈ ts, t.kind = .object ∧ x = s.address t.first ∧
    Object.linkWords m x ≤ t.count * s.granuleWords
  slots : ∀ x, P x → ∀ sl ∈ Object.slots m x, ∃ a, sl.load m e = .ok a ∧ (a = 0 ∨ P a)

/-- Every root is null or leads into `P`. -/
def Rooted (h : Heap) (P : Address → Prop) : Prop :=
  ∀ r ∈ h.rootReferences, ∃ a, r.load h.encoding = .ok a ∧ (a = 0 ∨ P a)

namespace Closed

variable {s s' : Space} {m m' : Memory} {e : NarrowEncoding} {ts ts' : List Tile} {P : Address → Prop}

theorem sameOn (hc : Closed s m e ts P) (hs : s.Tiled ts) (hk : Spares s m ts m' ts' P) {x : Address} (hx : P x) :
    wordBytes ∣ x ∧ m.SameOn m' (x / wordBytes) (x / wordBytes + Object.linkWords m x) := by
  obtain ⟨t, ht, hkind, rfl, hlink⟩ := hc.tile x hx
  refine ⟨hs.wordBytes_dvd_address _, ?_⟩
  apply (hk t ht hkind hx).2.mono (Nat.le_of_eq (hs.address_div_eq _).symm)
  rw [Tile.stop, s.wordAt_add, hs.address_div_eq]
  exact Nat.add_le_add_left hlink _

theorem pointsTo_iff (hc : Closed s m e ts P) (hs : s.Tiled ts) (hk : Spares s m ts m' ts' P) {x : Address} (hx : P x)
    (y : Address) : PointsTo m' e x y ↔ PointsTo m e x y := by
  obtain ⟨h1, h2⟩ := hc.sameOn hs hk hx
  exact Object.pointsTo_congr h1 h2 y

theorem pointsTo (hc : Closed s m e ts P) {x y : Address} (hx : P x) (h : PointsTo m e x y) : P y := by
  obtain ⟨hne, sl, hsl, hload⟩ := h
  obtain ⟨a, ha, hP⟩ := hc.slots x hx sl hsl
  rw [hload] at ha
  cases ha
  exact hP.resolve_left hne

theorem keeps (hc : Closed s m e ts P) (hs : s.Tiled ts) (hg : s.SameGrid s') (hk : Spares s m ts m' ts' P) :
    Closed s' m' e ts' P := by
  refine ⟨?_, ?_⟩
  · intro x hx
    obtain ⟨t, ht, hkind, rfl, hlink⟩ := hc.tile x hx
    obtain ⟨hdvd, hsame⟩ := hc.sameOn hs hk hx
    have hword := hsame _ (Nat.le_refl _) (Nat.lt_add_of_pos_right (Object.linkWords_pos m _))
    refine ⟨t, (hk t ht hkind hx).1, hkind, (hg.address _).symm, ?_⟩
    rw [hg.2]
    unfold Object.linkWords Object.isFiller at *
    rw [Object.header_congr hword]
    exact hlink
  · intro x hx sl hsl
    obtain ⟨hdvd, hsame⟩ := hc.sameOn hs hk hx
    rw [Object.slots_congr (hsame _ (Nat.le_refl _) (Nat.lt_add_of_pos_right (Object.linkWords_pos m _)))] at hsl
    obtain ⟨a, ha, hP⟩ := hc.slots x hx sl hsl
    obtain ⟨h1, h2⟩ := Object.slot_bounds hdvd hsl
    exact ⟨a, by rw [sl.load_congr e (hsame _ (Nat.le_of_lt h1) h2), ha], hP⟩

end Closed

theorem Rooted.of_live {h : Heap} {ts : List Tile} {P : Address → Prop} (hr : h.Rooted P)
    (hc : Closed h.space h.memory h.encoding ts P) {x : Address} (hx : h.Live x) : P x := by
  induction hx with
  | root hmem hne =>
    obtain ⟨r, hr', hload⟩ := mem_rootTargets.1 hmem
    obtain ⟨a, ha, hP⟩ := hr r hr'
    rw [hload] at ha
    cases ha
    exact hP.resolve_left hne
  | step _ hp ih => exact hc.pointsTo ih hp

/-- References lead to the same objects while the objects of `P` keep their words. -/
theorem reachable_congr {m m' : Memory} {e : NarrowEncoding} {targets : List Address} {P : Address → Prop}
    (hroot : ∀ x ∈ targets, x ≠ 0 → P x) (hstep : ∀ x y, P x → PointsTo m e x y → P y)
    (hsame : ∀ x y, P x → (PointsTo m' e x y ↔ PointsTo m e x y)) (x : Address) :
    Reachable m' e targets x ↔ Reachable m e targets x := by
  constructor
  · intro hx
    suffices Reachable m e targets x ∧ P x from this.1
    induction hx with
    | root hmem hne => exact ⟨.root hmem hne, hroot _ hmem hne⟩
    | step _ hp ih =>
      have hp' := (hsame _ _ ih.2).1 hp
      exact ⟨.step ih.1 hp', hstep _ _ ih.2 hp'⟩
  · intro hx
    suffices Reachable m' e targets x ∧ P x from this.1
    induction hx with
    | root hmem hne => exact ⟨.root hmem hne, hroot _ hmem hne⟩
    | step _ hp ih => exact ⟨.step ih.1 ((hsame _ _ ih.2).2 hp), hstep _ _ ih.2 hp⟩

end Heap
end MarkSweep
