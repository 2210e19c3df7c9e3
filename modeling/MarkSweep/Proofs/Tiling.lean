import MarkSweep.Heap.Tlab
import Mathlib.Data.List.Chain
/-!
# Tilings — the granules of a space, divided without gap or overlap

A tile is a run of granules that serves one purpose.  `Tiling lo ts hi` says that the tiles lie side by side from granule
`lo` up to granule `hi`.  Every operation of a heap replaces one tile by tiles over the same granules
(`Tiling.replace`), except the sweep, which divides all granules anew.
-/
namespace MarkSweep

/-- What a run of granules is used for. -/
inductive TileKind where
  | free
  /-- The words of a buffer that it did not grant yet. -/
  | tail (id : TlabId)
  /-- An object, dead or alive. -/
  | object
  /-- Words that were granted and carry no header yet. -/
  | raw
  deriving DecidableEq, Repr

/-- `count` granules from granule `first` on. -/
structure Tile where
  kind : TileKind
  first : Nat
  count : Nat
  deriving DecidableEq, Repr

namespace Tile

def stop (t : Tile) : Nat := t.first + t.count

def Covers (t : Tile) (i : Nat) : Prop := t.first ≤ i ∧ i < t.stop

def IsFree (t : Tile) : Prop := t.kind = .free

instance (t : Tile) : Decidable t.IsFree := inferInstanceAs (Decidable (t.kind = .free))

end Tile

/-- The tiles lie side by side from granule `lo` up to granule `hi`. -/
def Tiling : Nat → List Tile → Nat → Prop
  | lo, [], hi => lo = hi
  | lo, t :: ts, hi => t.first = lo ∧ 0 < t.count ∧ Tiling t.stop ts hi

namespace Tiling

theorem append_iff : ∀ {ts us : List Tile} {lo hi : Nat},
    Tiling lo (ts ++ us) hi ↔ ∃ mid, Tiling lo ts mid ∧ Tiling mid us hi
  | [], us, lo, hi => by simp [Tiling]
  | t :: ts, us, lo, hi => by
    simp only [List.cons_append, Tiling, @append_iff ts]
    constructor
    · rintro ⟨h1, h2, mid, h3, h4⟩
      exact ⟨mid, ⟨h1, h2, h3⟩, h4⟩
    · rintro ⟨mid, ⟨h1, h2, h3⟩, h4⟩
      exact ⟨h1, h2, mid, h3, h4⟩

theorem le : ∀ {ts : List Tile} {lo hi : Nat}, Tiling lo ts hi → lo ≤ hi
  | [], _, _, h => Nat.le_of_eq h
  | t :: ts, lo, hi, ⟨h1, h2, h3⟩ => by
    have := le h3
    unfold Tile.stop at this
    omega

theorem around {pre post : List Tile} {t : Tile} {lo hi : Nat} (h : Tiling lo (pre ++ t :: post) hi) :
    Tiling lo pre t.first ∧ 0 < t.count ∧ Tiling t.stop post hi := by
  obtain ⟨mid, h1, rfl, h2, h3⟩ := append_iff.1 h
  exact ⟨h1, h2, h3⟩

theorem bounds {ts : List Tile} {lo hi : Nat} (h : Tiling lo ts hi) {t : Tile} (ht : t ∈ ts) :
    lo ≤ t.first ∧ 0 < t.count ∧ t.stop ≤ hi := by
  obtain ⟨pre, post, rfl⟩ := List.append_of_mem ht
  obtain ⟨h1, h2, h3⟩ := h.around
  exact ⟨h1.le, h2, h3.le⟩

/-- **Every granule lies in a tile.** -/
theorem exists_covers : ∀ {ts : List Tile} {lo hi i : Nat}, Tiling lo ts hi → lo ≤ i → i < hi →
    ∃ t ∈ ts, t.Covers i
  | [], lo, hi, i, h, h1, h2 => by have : lo = hi := h; omega
  | t :: ts, lo, hi, i, ⟨h1, h2, h3⟩, hlo, hhi => by
    by_cases hi' : i < t.stop
    · exact ⟨t, by simp, by omega, hi'⟩
    · obtain ⟨u, hu, hc⟩ := exists_covers h3 (by omega) hhi
      exact ⟨u, by simp [hu], hc⟩

/-- **No granule lies in two tiles.** -/
theorem eq_of_covers : ∀ {ts : List Tile} {lo hi i : Nat} {t u : Tile}, Tiling lo ts hi → t ∈ ts → u ∈ ts →
    t.Covers i → u.Covers i → t = u
  | v :: ts, lo, hi, i, t, u, ⟨h1, h2, h3⟩, ht, hu, hti, hui => by
    unfold Tile.Covers at *
    rcases List.mem_cons.1 ht with rfl | ht' <;> rcases List.mem_cons.1 hu with rfl | hu'
    · rfl
    · have := h3.bounds hu'
      omega
    · have := h3.bounds ht'
      omega
    · exact eq_of_covers h3 ht' hu' hti hui

theorem covers_first {t : Tile} (h : 0 < t.count) : t.Covers t.first := by
  unfold Tile.Covers Tile.stop; omega

theorem eq_of_first {ts : List Tile} {lo hi : Nat} {t u : Tile} (h : Tiling lo ts hi) (ht : t ∈ ts) (hu : u ∈ ts)
    (hf : t.first = u.first) : t = u :=
  h.eq_of_covers ht hu (covers_first (h.bounds ht).2.1) (hf ▸ covers_first (h.bounds hu).2.1)

/-- **Different tiles are apart.** -/
theorem apart {ts : List Tile} {lo hi : Nat} {t u : Tile} (h : Tiling lo ts hi) (ht : t ∈ ts) (hu : u ∈ ts)
    (hne : t ≠ u) : t.stop ≤ u.first ∨ u.stop ≤ t.first := by
  have h1 := h.bounds ht
  have h2 := h.bounds hu
  refine Classical.byContradiction fun hc => hne ?_
  by_cases hle : t.first ≤ u.first
  · exact h.eq_of_covers (i := u.first) ht hu ⟨hle, by omega⟩ (covers_first h2.2.1)
  · exact h.eq_of_covers (i := t.first) ht hu (covers_first h1.2.1) ⟨by omega, by omega⟩

theorem pairwise : ∀ {ts : List Tile} {lo hi : Nat}, Tiling lo ts hi → ts.Pairwise fun t u => t.stop ≤ u.first
  | [], _, _, _ => .nil
  | _ :: _, _, _, ⟨_, _, h⟩ => List.pairwise_cons.2 ⟨fun _ hu => (h.bounds hu).1, pairwise h⟩

theorem nodup {ts : List Tile} {lo hi : Nat} (h : Tiling lo ts hi) : ts.Nodup := by
  apply h.pairwise.imp_of_mem
  intro t u ht _ hle
  rintro rfl
  have := (h.bounds ht).2.1
  unfold Tile.stop at hle
  omega

theorem not_mem_around {pre post : List Tile} {t : Tile} {lo hi : Nat} (h : Tiling lo (pre ++ t :: post) hi) :
    t ∉ pre ∧ t ∉ post := by
  have hnd := List.nodup_append.1 h.nodup
  exact ⟨fun ht => hnd.2.2 t ht t (by simp) rfl, (List.nodup_cons.1 hnd.2.1).1⟩

theorem replace {pre post us : List Tile} {t : Tile} {lo hi : Nat} (h : Tiling lo (pre ++ t :: post) hi)
    (hus : Tiling t.first us t.stop) : Tiling lo (pre ++ (us ++ post)) hi := by
  obtain ⟨h1, -, h3⟩ := h.around
  exact append_iff.2 ⟨_, h1, append_iff.2 ⟨_, hus, h3⟩⟩

end Tiling

/-! ## Free tiles -/

def freeTiles (ts : List Tile) : List Tile := ts.filter fun t => decide t.IsFree

theorem freeTiles_append (ts us : List Tile) : freeTiles (ts ++ us) = freeTiles ts ++ freeTiles us :=
  List.filter_append ..

theorem freeTiles_cons_of_free {t : Tile} (h : t.IsFree) (ts : List Tile) : freeTiles (t :: ts) = t :: freeTiles ts :=
  List.filter_cons_of_pos (by simpa using h)

theorem freeTiles_cons_of_not {t : Tile} (h : ¬t.IsFree) (ts : List Tile) : freeTiles (t :: ts) = freeTiles ts :=
  List.filter_cons_of_neg (by simpa using h)

theorem mem_freeTiles {ts : List Tile} {t : Tile} : t ∈ freeTiles ts ↔ t ∈ ts ∧ t.IsFree := by
  simp [freeTiles]

def usedTiles (ts : List Tile) : List Tile := ts.filter fun t => !decide t.IsFree

theorem mem_usedTiles {ts : List Tile} {t : Tile} : t ∈ usedTiles ts ↔ t ∈ ts ∧ ¬t.IsFree := by
  simp [usedTiles]

/-- No two free tiles touch. -/
def Separated (ts : List Tile) : Prop := ts.IsChain fun t u => ¬(t.IsFree ∧ u.IsFree)

theorem separated_append {ts us : List Tile} :
    Separated (ts ++ us) ↔ Separated ts ∧ Separated us ∧
      ∀ t ∈ ts.getLast?, ∀ u ∈ us.head?, ¬(t.IsFree ∧ u.IsFree) :=
  List.isChain_append

theorem separated_cons {t : Tile} {ts : List Tile} :
    Separated (t :: ts) ↔ (∀ u ∈ ts.head?, ¬(t.IsFree ∧ u.IsFree)) ∧ Separated ts :=
  List.isChain_cons

/-- Dividing a tile anew keeps free tiles apart if the new tiles are apart and only a free tile gets a free end. -/
theorem Separated.replace {pre post us : List Tile} {t : Tile} (h : Separated (pre ++ t :: post)) (hne : us ≠ [])
    (hus : Separated us) (hhead : ∀ u ∈ us.head?, u.IsFree → t.IsFree) (hlast : ∀ u ∈ us.getLast?, u.IsFree → t.IsFree) :
    Separated (pre ++ (us ++ post)) := by
  obtain ⟨h1, h2, h3⟩ := separated_append.1 h
  obtain ⟨h4, h5⟩ := separated_cons.1 h2
  rw [separated_append, separated_append]
  refine ⟨h1, ⟨hus, h5, ?_⟩, ?_⟩
  · intro u hu v hv
    exact fun ⟨hu', hv'⟩ => h4 v hv ⟨hlast u hu hu', hv'⟩
  · intro u hu v hv
    rw [List.head?_append_of_ne_nil _ hne] at hv
    exact fun ⟨hu', hv'⟩ => h3 u hu t rfl ⟨hu', hhead v hv hv'⟩

end MarkSweep
