/-!
# Word trees — a block of words as a binary tree

The tree branches on the bits of the word number, the highest first, and a block of equal words is one leaf.  `get_set`
and `get_fill` say what the two writes do to every word of a block, and `get_eq_of_findNot` what a search passes over.
-/
namespace MarkSweep

/-- The words of an aligned block: all equal, or split into a lower and an upper half. -/
inductive WordTree where
  | all (value : Nat)
  | node (lower upper : WordTree)
  deriving Repr

namespace WordTree

def lower : WordTree → WordTree
  | all v => all v
  | node l _ => l

def upper : WordTree → WordTree
  | all v => all v
  | node _ u => u

/-- The words of a block that the tree splits `d` times. -/
def blockSize : Nat → Nat
  | 0 => 1
  | d + 1 => blockSize d * 2

/-- Word `i` of a block of `blockSize d` words. -/
def get : Nat → WordTree → Nat → Nat
  | _, all v, _ => v
  | 0, node _ _, _ => 0
  | d + 1, node l u, i => if i < blockSize d then get d l i else get d u (i - blockSize d)

def set : Nat → WordTree → Nat → Nat → WordTree
  | 0, _, _, v => all v
  | d + 1, t, i, v =>
    if i < blockSize d then node (set d t.lower i v) t.upper else node t.lower (set d t.upper (i - blockSize d) v)

/-- Whether the block is one leaf of words `v`. -/
def isAll (v : Nat) : WordTree → Bool
  | all w => w == v
  | node _ _ => false

/-- The block with the words from `lo` up to, but not including, `hi` replaced by `v`. -/
def fill : Nat → WordTree → Nat → Nat → Nat → WordTree
  | 0, t, lo, hi, v => if lo = 0 ∧ 0 < hi then all v else t
  | d + 1, t, lo, hi, v =>
    if hi ≤ lo ∨ blockSize (d + 1) ≤ lo ∨ t.isAll v = true then t
    else if lo = 0 ∧ blockSize (d + 1) ≤ hi then all v
    else node (fill d t.lower lo hi v) (fill d t.upper (lo - blockSize d) (hi - blockSize d) v)

theorem blockSize_succ (d : Nat) : blockSize (d + 1) = blockSize d + blockSize d := by rw [blockSize]; omega

theorem blockSize_mono {c d : Nat} (h : c ≤ d) : blockSize c ≤ blockSize d := by
  induction d with
  | zero => exact Nat.le_of_eq (congrArg blockSize (Nat.le_zero.1 h))
  | succ d ih =>
    rcases Nat.lt_or_ge d c with hd | hd
    · exact Nat.le_of_eq (congrArg blockSize (show c = d + 1 by omega))
    · have := ih hd
      have := blockSize_succ d
      omega

theorem lt_blockSize_log2_succ (i : Nat) : i < blockSize (i.log2 + 1) := by
  have h : ∀ d, blockSize d = Nat.pow 2 d := by
    intro d
    induction d with
    | zero => rfl
    | succ d ih => rw [blockSize, ih]; rfl
  rw [h]
  exact Nat.lt_log2_self

theorem get_succ (d : Nat) (t : WordTree) (i : Nat) :
    get (d + 1) t i = if i < blockSize d then get d t.lower i else get d t.upper (i - blockSize d) := by
  cases t <;> simp [get, lower, upper]

theorem get_all (d v i : Nat) : get d (all v) i = v := by cases d <;> rfl

theorem eq_all_of_isAll {t : WordTree} {v : Nat} (h : t.isAll v = true) : t = all v := by
  cases t with
  | all w => simpa [isAll] using h
  | node l u => simp [isAll] at h

/-- Setting a word changes that word alone. -/
theorem get_set : ∀ (d : Nat) (t : WordTree) (i v j : Nat), i < blockSize d → j < blockSize d →
    get d (set d t i v) j = if i = j then v else get d t j
  | 0, t, i, v, j, hi, hj => by
    have : i = j := by simp only [blockSize] at hi hj; omega
    simp [set, get, this]
  | d + 1, t, i, v, j, hi, hj => by
    have h2 := blockSize_succ d
    rw [get_succ d t j]
    unfold set
    by_cases hi' : i < blockSize d
    · rw [if_pos hi', get_succ]
      simp only [lower, upper]
      by_cases hj' : j < blockSize d
      · rw [if_pos hj', if_pos hj', get_set d _ i v j hi' hj']
      · rw [if_neg hj', if_neg hj', if_neg (by omega)]
    · rw [if_neg hi', get_succ]
      simp only [lower, upper]
      by_cases hj' : j < blockSize d
      · rw [if_pos hj', if_pos hj', if_neg (by omega)]
      · rw [if_neg hj', if_neg hj', get_set d _ _ v _ (by omega) (by omega)]
        by_cases hij : i = j
        · subst hij; simp
        · rw [if_neg hij, if_neg (by omega)]

/-- Filling a range changes the words of the range alone. -/
theorem get_fill : ∀ (d : Nat) (t : WordTree) (lo hi v j : Nat), j < blockSize d →
    get d (fill d t lo hi v) j = if lo ≤ j ∧ j < hi then v else get d t j
  | 0, t, lo, hi, v, j, hj => by
    have hj0 : j = 0 := by simp only [blockSize] at hj; omega
    subst hj0
    unfold fill
    by_cases h : lo = 0 ∧ 0 < hi
    · rw [if_pos h, if_pos ⟨by omega, h.2⟩]; rfl
    · rw [if_neg h, if_neg (by omega)]
  | d + 1, t, lo, hi, v, j, hj => by
    have h2 := blockSize_succ d
    unfold fill
    by_cases hskip : hi ≤ lo ∨ blockSize (d + 1) ≤ lo ∨ t.isAll v = true
    · rw [if_pos hskip]
      rcases hskip with h | h | h
      · rw [if_neg (by omega)]
      · rw [if_neg (by omega)]
      · rw [eq_all_of_isAll h, get_all]; simp
    · rw [if_neg hskip]
      by_cases hall : lo = 0 ∧ blockSize (d + 1) ≤ hi
      · rw [if_pos hall, if_pos (by omega), get_all]
      · rw [if_neg hall, get_succ, get_succ d t j]
        simp only [lower, upper]
        by_cases hj' : j < blockSize d
        · rw [if_pos hj', if_pos hj', get_fill d _ lo hi v j hj']
        · rw [if_neg hj', if_neg hj', get_fill d _ _ _ v _ (by omega)]
          by_cases hr : lo ≤ j ∧ j < hi
          · rw [if_pos hr, if_pos (by omega)]
          · rw [if_neg hr, if_neg (by omega)]

/-! ## The same with the size of the block at hand

Every function above takes `blockSize d` at each level it passes, which is most of what a run would spend; halving a
size that is known is cheap. -/

/-- As `get`, for a block of `size` words. -/
def getFast : Nat → Nat → WordTree → Nat → Nat
  | _, _, all v, _ => v
  | 0, _, node _ _, _ => 0
  | d + 1, size, node l u, i =>
    let half := size / 2
    if i < half then getFast d half l i else getFast d half u (i - half)

def setFast : Nat → Nat → WordTree → Nat → Nat → WordTree
  | 0, _, _, _, v => all v
  | d + 1, size, all w, i, v =>
    let half := size / 2
    if i < half then node (setFast d half (all w) i v) (all w)
    else node (all w) (setFast d half (all w) (i - half) v)
  | d + 1, size, node l u, i, v =>
    let half := size / 2
    if i < half then node (setFast d half l i v) u else node l (setFast d half u (i - half) v)

def fillFast : Nat → Nat → WordTree → Nat → Nat → Nat → WordTree
  | 0, _, t, lo, hi, v => if lo = 0 ∧ 0 < hi then all v else t
  | d + 1, size, t, lo, hi, v =>
    if hi ≤ lo ∨ size ≤ lo ∨ t.isAll v = true then t
    else if lo = 0 ∧ size ≤ hi then all v
    else
      let half := size / 2
      match t with
      | all w => node (fillFast d half (all w) lo hi v) (fillFast d half (all w) (lo - half) (hi - half) v)
      | node l u => node (fillFast d half l lo hi v) (fillFast d half u (lo - half) (hi - half) v)

theorem blockSize_succ_div_two (d : Nat) : blockSize (d + 1) / 2 = blockSize d := by rw [blockSize_succ]; omega

theorem getFast_eq_get : ∀ (d : Nat) (t : WordTree) (i : Nat), getFast d (blockSize d) t i = get d t i
  | d, all v, i => by rw [get_all]; cases d <;> rfl
  | 0, node l u, i => rfl
  | d + 1, node l u, i => by
    simp only [getFast, get, blockSize_succ_div_two, getFast_eq_get d]

theorem setFast_eq_set : ∀ (d : Nat) (t : WordTree) (i v : Nat), setFast d (blockSize d) t i v = set d t i v
  | 0, t, i, v => rfl
  | d + 1, all w, i, v => by
    simp only [setFast, set, lower, upper, blockSize_succ_div_two, setFast_eq_set d]
  | d + 1, node l u, i, v => by
    simp only [setFast, set, lower, upper, blockSize_succ_div_two, setFast_eq_set d]

theorem fillFast_eq_fill : ∀ (d : Nat) (t : WordTree) (lo hi v : Nat),
    fillFast d (blockSize d) t lo hi v = fill d t lo hi v
  | 0, t, lo, hi, v => rfl
  | d + 1, all w, lo, hi, v => by
    simp only [fillFast, fill, lower, upper, blockSize_succ_div_two, fillFast_eq_fill d]
  | d + 1, node l u, lo, hi, v => by
    simp only [fillFast, fill, lower, upper, blockSize_succ_div_two, fillFast_eq_fill d]

/-! ## Search -/

/-- The first word from number `i` on, in a block of `size` words, that is not `v`. -/
def findNot (v : Nat) : Nat → Nat → WordTree → Nat → Option Nat
  | _, size, all w, i => if w = v ∨ size ≤ i then none else some i
  | 0, size, node _ _, i => if 0 = v ∨ size ≤ i then none else some i
  | d + 1, size, node l u, i =>
    let half := size / 2
    if i < half then
      match findNot v d half l i with
      | some j => some j
      | none => (findNot v d half u 0).map (· + half)
    else (findNot v d half u (i - half)).map (· + half)

/-- A word that is found lies where it was looked for. -/
theorem bounds_of_findNot (v : Nat) : ∀ (d : Nat) (t : WordTree) (i j : Nat),
    findNot v d (blockSize d) t i = some j → i ≤ j ∧ j < blockSize d
  | d, all w, i, j, h => by
    have h : (if w = v ∨ blockSize d ≤ i then none else some i) = some j := by cases d <;> exact h
    split at h
    · cases h
    · cases h; omega
  | 0, node l u, i, j, h => by
    rw [findNot] at h
    split at h
    · cases h
    · cases h; omega
  | d + 1, node l u, i, j, h => by
    have h2 := blockSize_succ d
    simp only [findNot, blockSize_succ_div_two] at h
    split at h
    · split at h
      · next j' hl =>
        cases h
        have := bounds_of_findNot v d l i j hl
        omega
      · obtain ⟨j', hu, rfl⟩ := Option.map_eq_some_iff.1 h
        have := bounds_of_findNot v d u 0 j' hu
        omega
    · obtain ⟨j', hu, rfl⟩ := Option.map_eq_some_iff.1 h
      have := bounds_of_findNot v d u (i - blockSize d) j' hu
      omega

/-- A search passes over words `v` alone. -/
theorem get_eq_of_findNot (v : Nat) : ∀ (d : Nat) (t : WordTree) (i k : Nat), i ≤ k → k < blockSize d →
    (∀ j, findNot v d (blockSize d) t i = some j → k < j) → get d t k = v
  | d, all w, i, k, hik, hk, h => by
    rw [get_all]
    by_cases hw : w = v
    · exact hw
    · have hf : findNot v d (blockSize d) (all w) i = some i := by
        have : ¬(w = v ∨ blockSize d ≤ i) := by omega
        cases d <;> exact if_neg this
      have := h i hf
      omega
  | 0, node l u, i, k, hik, hk, h => by
    by_cases hv : 0 = v
    · exact hv
    · have hf : findNot v 0 (blockSize 0) (node l u) i = some i := if_neg (by omega)
      have := h i hf
      omega
  | d + 1, node l u, i, k, hik, hk, h => by
    have h2 := blockSize_succ d
    simp only [findNot, blockSize_succ_div_two] at h
    rw [get_succ]
    by_cases hk' : k < blockSize d
    · rw [if_pos hk']
      refine get_eq_of_findNot v d l i k hik hk' fun j hj => h j ?_
      rw [if_pos (by omega), hj]
    · rw [if_neg hk']
      by_cases hi : i < blockSize d
      · rw [if_pos hi] at h
        refine get_eq_of_findNot v d u 0 (k - blockSize d) (by omega) (by omega) fun j hj => ?_
        cases hl : findNot v d (blockSize d) l i with
        | some j' =>
          have := h j' (by rw [hl])
          have := bounds_of_findNot v d l i j' hl
          omega
        | none =>
          have := h (j + blockSize d) (by rw [hl, hj]; rfl)
          omega
      · rw [if_neg hi] at h
        refine get_eq_of_findNot v d u (i - blockSize d) (k - blockSize d) (by omega) (by omega) fun j hj => ?_
        have := h (j + blockSize d) (by rw [hj]; rfl)
        omega

end WordTree

end MarkSweep
