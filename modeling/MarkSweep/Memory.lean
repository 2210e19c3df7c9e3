import MarkSweep.Address
import MarkSweep.Memory.WordTree
/-!
# Memory — the words behind the addresses

Memory is a total function from word numbers to words: a word nobody wrote reads as zero.  It is kept as a tree of
blocks, so that a heap of many megabytes costs what is written to it, and clearing a long range costs its two edges.

`word_setWord` and `word_fillWords` say what the two writes do to every word, and `word_eq_of_lt_firstNot` what a search
passes over; nothing else looks into the tree.
-/
namespace MarkSweep

/-- The words below `size`; every word above is zero. -/
structure Memory where
  depth : Nat
  size : Nat
  tree : WordTree
  size_eq : size = WordTree.blockSize depth
  deriving Repr

namespace Memory

def blank : Memory := ⟨0, 1, .all 0, rfl⟩

instance : Inhabited Memory := ⟨blank⟩

def word (m : Memory) (i : Nat) : Nat := if i < m.size then m.tree.getFast m.depth m.size i else 0

/-- The same words in a tree that is `n` levels deeper. -/
def deepen : Nat → Memory → Memory
  | 0, m => m
  | n + 1, m => deepen n ⟨m.depth + 1, m.size * 2, .node m.tree (.all 0), by rw [m.size_eq]; rfl⟩

/-- The same words in a tree that is deep enough for word `i`. -/
def reach (m : Memory) (i : Nat) : Memory := if i < m.size then m else deepen (i.log2 + 1 - m.depth) m

def setWord (m : Memory) (i v : Nat) : Memory :=
  let m := m.reach i
  { m with tree := m.tree.setFast m.depth m.size i v }

/-- Replaces the `count` words from number `i` on by `v`. -/
def fillWords (m : Memory) (i count v : Nat) : Memory :=
  let m := m.reach (i + count)
  { m with tree := m.tree.fillFast m.depth m.size i (i + count) v }

def read (m : Memory) (a : Address) : Nat := m.word (a / wordBytes)

def write (m : Memory) (a : Address) (v : Nat) : Memory := m.setWord (a / wordBytes) v

def zero (m : Memory) (a : Address) (count : Nat) : Memory := m.fillWords (a / wordBytes) count 0

theorem word_eq (m : Memory) (i : Nat) :
    m.word i = if i < WordTree.blockSize m.depth then m.tree.get m.depth i else 0 := by
  simp only [word, m.size_eq, WordTree.getFast_eq_get]

@[simp] theorem word_blank (i : Nat) : blank.word i = 0 := by
  rw [word_eq, blank]; split <;> simp [WordTree.get_all]

@[simp] theorem word_deepen : ∀ (n : Nat) (m : Memory) (i : Nat), (deepen n m).word i = m.word i
  | 0, _, _ => rfl
  | n + 1, m, i => by
    rw [deepen, word_deepen n]
    have h2 := WordTree.blockSize_succ m.depth
    rw [word_eq, word_eq]
    simp only
    by_cases h : i < WordTree.blockSize m.depth
    · rw [if_pos (by omega), if_pos h, WordTree.get_succ, if_pos h]; rfl
    · rw [if_neg h]
      split
      · rw [WordTree.get_succ, if_neg h]; exact WordTree.get_all _ _ _
      · rfl

theorem depth_deepen : ∀ (n : Nat) (m : Memory), (deepen n m).depth = m.depth + n
  | 0, _ => rfl
  | n + 1, m => by rw [deepen, depth_deepen n]; simp only; omega

@[simp] theorem word_reach (m : Memory) (i j : Nat) : (m.reach i).word j = m.word j := by
  unfold reach
  split
  · rfl
  · exact word_deepen _ _ _

theorem lt_blockSize_depth_reach (m : Memory) (i : Nat) : i < WordTree.blockSize (m.reach i).depth := by
  unfold reach
  split
  · next h => rw [m.size_eq] at h; exact h
  · refine Nat.lt_of_lt_of_le (WordTree.lt_blockSize_log2_succ i) (WordTree.blockSize_mono ?_)
    rw [depth_deepen]; omega

/-- Setting a word changes that word alone. -/
theorem word_setWord (m : Memory) (i v j : Nat) :
    (m.setWord i v).word j = if i = j then v else m.word j := by
  have hi := lt_blockSize_depth_reach m i
  rw [← word_reach m i j, setWord, word_eq, word_eq]
  simp only [size_eq, WordTree.setFast_eq_set]
  by_cases hj : j < WordTree.blockSize (m.reach i).depth
  · rw [if_pos hj, if_pos hj, WordTree.get_set _ _ _ _ _ hi hj]
  · rw [if_neg hj, if_neg hj, if_neg (by omega)]

/-- Filling a range changes the words of the range alone. -/
theorem word_fillWords (m : Memory) (i count v j : Nat) :
    (m.fillWords i count v).word j = if i ≤ j ∧ j < i + count then v else m.word j := by
  have hi := lt_blockSize_depth_reach m (i + count)
  rw [← word_reach m (i + count) j, fillWords, word_eq, word_eq]
  simp only [size_eq, WordTree.fillFast_eq_fill]
  by_cases hj : j < WordTree.blockSize (m.reach (i + count)).depth
  · rw [if_pos hj, if_pos hj, WordTree.get_fill _ _ _ _ _ _ hj]
  · rw [if_neg hj, if_neg hj, if_neg (by omega)]

/-! ## Search -/

/-- The first word from number `i` up to, but not including, `stop` that is not `v`; `stop` if there is none. -/
def firstNot (m : Memory) (v i stop : Nat) : Nat :=
  match if i < m.size then m.tree.findNot v m.depth m.size i else none with
  | some j => min j stop
  | none => if v = 0 then stop else min (max i m.size) stop

theorem le_firstNot (m : Memory) (v : Nat) {i stop : Nat} (h : i ≤ stop) : i ≤ m.firstNot v i stop := by
  unfold firstNot
  rw [m.size_eq]
  split
  · next j hj =>
    split at hj
    · have := WordTree.bounds_of_findNot v m.depth m.tree i j hj
      omega
    · cases hj
  · split <;> omega

/-- A search passes over words `v` alone. -/
theorem word_eq_of_lt_firstNot (m : Memory) (v : Nat) {i stop k : Nat} (hik : i ≤ k)
    (hk : k < m.firstNot v i stop) : m.word k = v := by
  rw [word_eq]
  unfold firstNot at hk
  rw [m.size_eq] at hk
  by_cases hs : k < WordTree.blockSize m.depth
  · rw [if_pos hs]
    refine WordTree.get_eq_of_findNot v m.depth m.tree i k hik hs fun j hj => ?_
    rw [if_pos (by omega), hj] at hk
    simp only at hk
    omega
  · rw [if_neg hs]
    split at hk
    · next j hj =>
      split at hj
      · have := WordTree.bounds_of_findNot v m.depth m.tree i j hj
        omega
      · cases hj
    · split at hk
      · next h0 => exact h0.symm
      · omega

end Memory

end MarkSweep
