import MarkSweep.Proofs.Bitmap.Word
/-!
# Searches of a bitmap — the same as looking at one bit after the other

`findBit` looks at a word at a time and passes over uniform words together.  What it finds is the first bit of the range
that equals the wanted one (`findBit_spec`).
-/
namespace MarkSweep
namespace Bitmap

theorem wordBit_matches (w live : UInt64) (want : Bool) {j : Nat} (hj : j < mapWordBits) :
    wordBit ((if want then w else ~~~w) &&& live) j = (decide (wordBit w j = want) && wordBit live j) := by
  cases want <;> simp [hj]

/-- From bit number `lo` on, `r` is the first that equals `want`, or `stop` where there is none before it. -/
structure Reaches (words : Memory) (want : Bool) (stop lo r : Nat) : Prop where
  le : r ≤ stop
  low : min lo stop ≤ r
  skips : ∀ i, lo ≤ i → i < r → wordBit (mapWord words (i / mapWordBits)) (i % mapWordBits) = !want
  hits : r < stop → wordBit (mapWord words (r / mapWordBits)) (r % mapWordBits) = want

namespace Reaches

variable {words : Memory} {want : Bool} {stop index m : Nat} {w : UInt64}

theorem past {lo : Nat} (h : stop ≤ lo) : Reaches words want stop lo stop :=
  ⟨Nat.le_refl _, Nat.min_le_right _ _, fun i hi hlt => by omega, fun h => by omega⟩

/-- A bit of the word that counts and is not among those that match. -/
theorem miss (hw : ∀ j, j < mapWordBits → wordBit w j = (decide (wordBit (mapWord words index) j = want) && decide (m ≤ j)))
    {i : Nat} (hi : index * mapWordBits + m ≤ i) (hidx : i / mapWordBits = index)
    (hwi : wordBit w (i % mapWordBits) = false) : wordBit (mapWord words (i / mapWordBits)) (i % mapWordBits) = !want := by
  rw [hw _ (Nat.mod_lt _ (by decide)), decide_eq_true (show m ≤ i % mapWordBits by unfold mapWordBits at *; omega),
    Bool.and_true, decide_eq_false_iff_not] at hwi
  rw [hidx]
  cases want <;> simpa using hwi

/-- A word with a match decides the search. -/
theorem lowest (hm : m < mapWordBits)
    (hw : ∀ j, j < mapWordBits → wordBit w j = (decide (wordBit (mapWord words index) j = want) && decide (m ≤ j)))
    (hne : w ≠ 0) :
    Reaches words want stop (index * mapWordBits + m) (min (index * mapWordBits + lowestBit w mapWordBits 0) stop) := by
  obtain ⟨-, -, hskip, hhit⟩ := lowestBit_spec w mapWordBits 0 (by omega)
  generalize lowestBit w mapWordBits 0 = r at hskip hhit
  have hr : r < mapWordBits := Nat.lt_of_not_le fun hr =>
    hne (eq_zero_iff_wordBit.2 fun j hj => hskip j (Nat.zero_le _) (Nat.lt_of_lt_of_le hj hr))
  have hmatch := hw r hr
  rw [hhit (by omega), eq_comm, Bool.and_eq_true, decide_eq_true_eq, decide_eq_true_eq] at hmatch
  constructor
  case le => exact Nat.min_le_right _ _
  case low => omega
  case skips =>
    intro i hi hlt
    have hidx : i / mapWordBits = index := by unfold mapWordBits at *; omega
    exact miss hw hi hidx (hskip _ (by omega) (by unfold mapWordBits at *; omega))
  case hits =>
    intro h
    have hmin : min (index * mapWordBits + r) stop = index * mapWordBits + r := by omega
    rw [hmin, show (index * mapWordBits + r) / mapWordBits = index by unfold mapWordBits at *; omega,
      show (index * mapWordBits + r) % mapWordBits = r by unfold mapWordBits at *; omega]
    exact hmatch.1

/-- A word without a match is passed over, with all uniform words behind it. -/
theorem skip (hm : m < mapWordBits)
    (hw : ∀ j, j < mapWordBits → wordBit w j = (decide (wordBit (mapWord words index) j = want) && decide (m ≤ j)))
    (hzero : w = 0) {limit r : Nat} (hlimit : index + 1 ≤ limit)
    (f : Reaches words want stop (words.firstNot (uniformWord !want).toNat (index + 1) limit * mapWordBits) r) :
    Reaches words want stop (index * mapWordBits + m) r := by
  generalize hnext : words.firstNot (uniformWord !want).toNat (index + 1) limit = next at f
  have hge : index + 1 ≤ next := hnext ▸ Memory.le_firstNot words _ hlimit
  have hmono : (index + 1) * mapWordBits ≤ next * mapWordBits := Nat.mul_le_mul_right _ hge
  have hlow := f.low
  refine ⟨f.le, by unfold mapWordBits at *; omega, fun i hi hlt => ?_, f.hits⟩
  by_cases hidx : i / mapWordBits = index
  · exact miss hw hi hidx (by rw [hzero, wordBit_zero])
  by_cases hpass : i / mapWordBits < next
  · have hle : index + 1 ≤ i / mapWordBits := by unfold mapWordBits at *; omega
    have hword := words.word_eq_of_lt_firstNot (uniformWord !want).toNat hle (by rw [hnext]; exact hpass)
    rw [mapWord, hword, UInt64.ofNat_toNat, wordBit_uniformWord (Nat.mod_lt _ (by decide))]
  · exact f.skips i (by unfold mapWordBits at *; omega) hlt

end Reaches

/-- A search over words from number `index` on, in which the bits below `m` of the first word do not count. -/
theorem searchWords_spec (words : Memory) (want : Bool) {stop last : Nat} (hstop : stop ≤ (last + 1) * mapWordBits) :
    ∀ (n index m : Nat) (live : UInt64), last + 1 ≤ index + n → m < mapWordBits →
      (∀ j, j < mapWordBits → wordBit live j = decide (m ≤ j)) →
      Reaches words want stop (index * mapWordBits + m) (searchWords words want stop last n index live)
  | 0, index, m, live, hn, hm, _ => by
    have hle : (last + 1) * mapWordBits ≤ index * mapWordBits := Nat.mul_le_mul_right _ (by omega)
    exact .past (by omega)
  | n + 1, index, m, live, hn, hm, hlive => by
    unfold searchWords
    by_cases hpast : last < index
    · have hle : (last + 1) * mapWordBits ≤ index * mapWordBits := Nat.mul_le_mul_right _ (by omega)
      rw [if_pos hpast]
      exact .past (by omega)
    rw [if_neg hpast]
    simp only
    generalize hw : (if want then mapWord words index else ~~~mapWord words index) &&& live = w
    have hbit : ∀ j, j < mapWordBits → wordBit w j = (decide (wordBit (mapWord words index) j = want) && decide (m ≤ j)) :=
      fun j hj => by rw [← hw, wordBit_matches _ _ _ hj, hlive j hj]
    by_cases hz : w != 0
    · rw [if_pos hz]
      exact .lowest hm hbit (bne_iff_ne.1 hz)
    · rw [if_neg hz]
      have hlimit : index + 1 ≤ last + 1 := by omega
      have hge := Memory.le_firstNot words (uniformWord !want).toNat hlimit
      refine .skip hm hbit (by simpa using hz) hlimit ?_
      generalize words.firstNot (uniformWord !want).toNat (index + 1) (last + 1) = next at hge
      exact searchWords_spec words want hstop n next 0 (~~~0) (by omega) (by decide) fun j hj => by
        rw [show (~~~0 : UInt64) = uniformWord true from rfl, wordBit_uniformWord hj]
        simp

/-- **`findBit` gives the first bit of the range that equals `want`**, or the end of the range. -/
theorem findBit_spec (b : Bitmap) (want : Bool) {lo hi : Nat} (h : lo ≤ hi) :
    lo ≤ b.findBit want lo hi ∧ b.findBit want lo hi ≤ hi ∧
      (∀ i, lo ≤ i → i < b.findBit want lo hi → b.testBit i = !want) ∧
      (b.findBit want lo hi < hi → b.testBit (b.findBit want lo hi) = want) := by
  unfold findBit
  by_cases hle : hi ≤ lo
  · rw [if_pos hle]
    exact ⟨by omega, Nat.le_refl _, fun i h1 h2 => by omega, fun h => by omega⟩
  rw [if_neg hle]
  simp only
  have hlast : hi ≤ ((hi - 1) / mapWordBits + 1) * mapWordBits := by unfold mapWordBits; omega
  have f := searchWords_spec b.words want hlast ((hi - 1) / mapWordBits + 1 - lo / mapWordBits)
    (lo / mapWordBits) (lo % mapWordBits)
    (~~~0 <<< UInt64.ofNat (lo % mapWordBits)) (by unfold mapWordBits; omega) (Nat.mod_lt _ (by decide))
    (fun j hj => wordBit_full_shiftLeft (Nat.mod_lt _ (by decide)) hj)
  rw [show lo / mapWordBits * mapWordBits + lo % mapWordBits = lo by unfold mapWordBits; omega] at f
  have hlow := f.low
  refine ⟨by omega, f.le, ?_, ?_⟩
  · intro i hi hlt
    rw [testBit_eq]
    exact f.skips i hi hlt
  · intro hlt
    rw [testBit_eq]
    exact f.hits hlt

theorem findBit_eq {b : Bitmap} {want : Bool} {lo hi r : Nat} (hlo : lo ≤ r) (hhi : r ≤ hi)
    (hskip : ∀ i, lo ≤ i → i < r → b.testBit i = !want) (hhit : r < hi → b.testBit r = want) :
    b.findBit want lo hi = r := by
  obtain ⟨h1, h2, h3, h4⟩ := findBit_spec b want (Nat.le_trans hlo hhi)
  generalize b.findBit want lo hi = q at h1 h2 h3 h4
  rcases Nat.lt_trichotomy q r with h | h | h
  · have := hskip q h1 h
    rw [h4 (by omega)] at this
    cases want <;> cases this
  · exact h
  · have := h3 r hlo h
    rw [hhit (by omega)] at this
    cases want <;> cases this

end Bitmap
end MarkSweep
