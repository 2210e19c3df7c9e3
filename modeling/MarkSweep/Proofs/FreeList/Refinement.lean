import MarkSweep.Proofs.FreeList
/-!
# The free list refines a plain list of chunks

Beside every free list that has served requests since it was empty runs the plain list of chunks that served the same
ones (`Serves`).  The two answer alike and mean the same chunks (`Serves.refines`), and the arena has never more nodes
than the most chunks that were listed at one time.
-/
namespace MarkSweep
namespace FreeList

/-! ## Requests, and how a plain list serves them -/

inductive Request where
  | append (c : Chunk)
  | take (words : Nat)
  | clear

/-- `d` starts where `c` ends, or behind it. -/
def Before (c d : Chunk) : Prop := c.start + c.words * wordBytes ≤ d.start

instance (c d : Chunk) : Decidable (Before c d) := inferInstanceAs (Decidable (_ ≤ _))

/-- First fit on a plain list: the first chunk with enough words loses them from its low end. -/
def cut (words : Nat) : List Chunk → List Chunk
  | [] => []
  | c :: cs => if words ≤ c.words then remainder c words ++ cs else c :: cut words cs

namespace Request

/-- The rules for appending: chunks come in address order and do not overlap, and neither an end nor the sum of all words
passes the greatest number. -/
def Allowed (cs : List Chunk) : Request → Prop
  | append c => 0 < c.words ∧ (∀ d ∈ cs.getLast?, Before d c) ∧ c.start + c.words * wordBytes < addressLimit ∧
      (cs.map (·.words)).sum + c.words < addressLimit
  | take _ | clear => True

instance (cs : List Chunk) : DecidablePred (Allowed cs)
  | append _ => inferInstanceAs (Decidable (_ ∧ _))
  | take _ | clear => inferInstanceAs (Decidable True)

def plain (cs : List Chunk) : Request → Option Address × List Chunk
  | append c => (none, cs ++ [c])
  | take words => ((cs.find? fun c => decide (words ≤ c.words)).map (·.start), cut words cs)
  | clear => (none, [])

def serve (l : FreeList) : Request → Except Fault (Option Address) × FreeList
  | append c => ((l.append c).1.map fun _ => none, (l.append c).2)
  | take words => l.take words
  | clear => (.ok none, l.clear)

end Request

/-- A free list after requests in any order, the plain list after the same ones, and the most chunks that were ever
listed at one time. -/
inductive Serves : FreeList → List Chunk → Nat → Prop
  | empty : Serves .empty [] 0
  | step {l : FreeList} {cs : List Chunk} {peak : Nat} (served : Serves l cs peak) (r : Request) (allowed : r.Allowed cs) :
      Serves (r.serve l).2 (r.plain cs).2 (max peak (r.plain cs).2.length)

/-- The chunks ascend and do not overlap; none is empty, and each ends at an address. -/
structure Ordered (cs : List Chunk) : Prop where
  nonempty : ∀ c ∈ cs, 0 < c.words
  ascending : cs.Pairwise Before
  bounded : ∀ c ∈ cs, c.start + c.words * wordBytes < addressLimit

/-- **The free list is the plain list**: the same chunks, the same counts, and the same answer to every request. -/
structure Refines (l : FreeList) (cs : List Chunk) (peak : Nat) : Prop where
  /-- The links lead from the head through these chunks and end; the tail is the last node; and every arena index is
  either linked once or vacant once. -/
  represents : l.Represents cs
  ordered : Ordered cs
  /-- The iteration ends by itself, whatever bound it is given. -/
  iterates : ∀ n, cs.length ≤ n → chunksFrom l.nodes n l.head = cs
  chunks : l.chunks = cs
  length : l.length = cs.length
  freeWords : l.freeWords = (cs.map (·.words)).sum
  answers : ∀ r : Request, r.Allowed cs → (r.serve l).1 = .ok (r.plain cs).1
  leads : ∀ r : Request, r.Allowed cs → (r.serve l).2.chunks = (r.plain cs).2
  /-- Where no chunk is large enough, and only there, nothing is taken and nothing changes. -/
  refuses : ∀ words, (l.take words).1 = .ok none ↔ ∀ c ∈ cs, c.words < words
  unchanged : ∀ words, (l.take words).1 = .ok none → (l.take words).2 = l
  /-- The first chunk that is large enough is the lowest one. -/
  lowest : ∀ words a, (l.take words).1 = .ok (some a) →
    ∃ c ∈ cs, c.start = a ∧ words ≤ c.words ∧ ∀ d ∈ cs, words ≤ d.words → a ≤ d.start
  arena : l.nodes.size ≤ peak

variable {l : FreeList} {cs pre post : List Chunk} {c d : Chunk} {words peak : Nat}

/-! ## Plain lists -/

theorem find?_eq_none_of_small (h : ∀ c ∈ cs, c.words < words) : (cs.find? fun c => decide (words ≤ c.words)) = none :=
  List.find?_eq_none.2 fun c hc => by simpa using h c hc

theorem find?_eq_some_of_first (hpre : ∀ d ∈ pre, d.words < words) (hc : words ≤ c.words) :
    ((pre ++ c :: post).find? fun c => decide (words ≤ c.words)) = some c :=
  List.find?_eq_some_iff_append.2 ⟨decide_eq_true hc, pre, post, rfl, fun d hd => by simpa using hpre d hd⟩

theorem cut_of_small : ∀ {cs : List Chunk}, (∀ c ∈ cs, c.words < words) → cut words cs = cs
  | [], _ => rfl
  | c :: cs, h => by
    rw [cut, if_neg (Nat.not_le_of_lt (h c (by simp))), cut_of_small fun d hd => h d (by simp [hd])]

theorem cut_of_first (hc : words ≤ c.words) : ∀ {pre : List Chunk}, (∀ d ∈ pre, d.words < words) →
    cut words (pre ++ c :: post) = pre ++ remainder c words ++ post
  | [], _ => by rw [List.nil_append, cut, if_pos hc, List.nil_append]
  | d :: pre, h => by
    rw [List.cons_append, cut, if_neg (Nat.not_le_of_lt (h d (by simp))), cut_of_first hc fun e he => h e (by simp [he])]
    rfl

/-- Either no chunk is large enough, or there is a first one. -/
theorem small_or_first (cs : List Chunk) (words : Nat) : (∀ c ∈ cs, c.words < words) ∨
    ∃ pre c post, cs = pre ++ c :: post ∧ (∀ d ∈ pre, d.words < words) ∧ words ≤ c.words := by
  cases hf : cs.find? fun c => decide (words ≤ c.words) with
  | none => exact .inl fun c hc => by simpa using List.find?_eq_none.1 hf c hc
  | some c =>
    obtain ⟨hc, pre, post, rfl, hpre⟩ := List.find?_eq_some_iff_append.1 hf
    exact .inr ⟨pre, c, post, rfl, fun d hd => by simpa using hpre d hd, of_decide_eq_true hc⟩

/-- What is left of a chunk has words, and ends where the chunk did. -/
theorem mem_remainder (hc : words ≤ c.words) (hd : d ∈ remainder c words) :
    0 < d.words ∧ c.start ≤ d.start ∧ d.start + d.words * wordBytes = c.start + c.words * wordBytes := by
  unfold remainder at hd
  split at hd
  · cases hd
  · next hne =>
    obtain rfl := List.mem_singleton.1 hd
    have hsplit : words * wordBytes + (c.words - words) * wordBytes = c.words * wordBytes := by
      rw [← Nat.add_mul, Nat.add_sub_cancel' hc]
    refine ⟨Nat.sub_pos_of_lt (Nat.lt_of_le_of_ne hc (Ne.symm hne)), Nat.le_add_right _ _, ?_⟩
    show c.start + words * wordBytes + (c.words - words) * wordBytes = _
    rw [Nat.add_assoc, hsplit]

namespace Ordered

theorem nil : Ordered [] := ⟨by simp, .nil, by simp⟩

/-- Behind the last chunk is behind all of them. -/
theorem concat (h : Ordered cs) (hpos : 0 < c.words) (hlast : ∀ d ∈ cs.getLast?, Before d c)
    (hend : c.start + c.words * wordBytes < addressLimit) : Ordered (cs ++ [c]) := by
  have hall : ∀ d ∈ cs, Before d c := by
    intro d hd
    rcases List.eq_nil_or_concat cs with rfl | ⟨xs, e, rfl⟩
    · cases hd
    rw [List.concat_eq_append] at *
    have he : Before e c := hlast e (by simp)
    rcases List.mem_append.1 hd with hd | hd
    · have hde : Before d e := (List.pairwise_append.1 h.ascending).2.2 d hd e (by simp)
      exact Nat.le_trans hde (Nat.le_trans (Nat.le_add_right _ _) he)
    · rwa [List.mem_singleton.1 hd]
  constructor
  case nonempty => simpa [or_imp, forall_and] using ⟨h.nonempty, hpos⟩
  case ascending =>
    refine List.pairwise_append.2 ⟨h.ascending, List.pairwise_singleton _ _, ?_⟩
    intro d hd e he
    rw [List.mem_singleton.1 he]
    exact hall d hd
  case bounded => simpa [or_imp, forall_and] using ⟨h.bounded, hend⟩

theorem cut (h : Ordered (pre ++ c :: post)) (hc : words ≤ c.words) : Ordered (pre ++ remainder c words ++ post) := by
  obtain ⟨hpre, hrest, hacross⟩ := List.pairwise_append.1 h.ascending
  obtain ⟨hhead, hpost⟩ := List.pairwise_cons.1 hrest
  have hmem {d : Chunk} (hd : d ∈ pre ++ remainder c words ++ post) :
      d ∈ pre ++ c :: post ∨ d ∈ remainder c words := by
    rcases List.mem_append.1 hd with hd | hd
    · exact (List.mem_append.1 hd).imp (fun hd => List.mem_append_left _ hd) id
    · exact .inl (by simp [hd])
  constructor
  case nonempty =>
    intro d hd
    rcases hmem hd with hd | hd
    · exact h.nonempty d hd
    · exact (mem_remainder hc hd).1
  case bounded =>
    intro d hd
    rcases hmem hd with hd | hd
    · exact h.bounded d hd
    · rw [(mem_remainder hc hd).2.2]
      exact h.bounded c (by simp)
  case ascending =>
    refine List.pairwise_append.2 ⟨List.pairwise_append.2 ⟨hpre, ?_, ?_⟩, hpost, ?_⟩
    · unfold remainder
      split
      · exact .nil
      · exact List.pairwise_singleton _ _
    · intro d hd e he
      exact Nat.le_trans (hacross d hd c (by simp)) (mem_remainder hc he).2.1
    · intro d hd e he
      rcases List.mem_append.1 hd with hd | hd
      · exact hacross d hd e (by simp [he])
      · unfold Before
        rw [(mem_remainder hc hd).2.2]
        exact hhead e he

end Ordered

/-! ## The arena -/

theorem size_push (h : l.Represents cs) (c : Chunk) : (l.push c).2.nodes.size ≤ max l.nodes.size (cs.length + 1) := by
  have hplace : (l.place ⟨c, none⟩).2.nodes.size ≤ max l.nodes.size (cs.length + 1) := by
    unfold place
    cases hv : l.vacant with
    | cons i rest =>
      simp only [Array.size_setIfInBounds]
      exact Nat.le_max_left _ _
    | nil =>
      -- without a vacant index every node is linked
      obtain ⟨ps, hp, rfl⟩ := h
      have hlen := hp.arena.length_eq
      rw [hv, List.append_nil, List.length_map, List.length_range] at hlen
      simp only [Array.size_push, List.length_map, hlen]
      exact Nat.le_max_right _ _
  unfold push
  generalize l.place ⟨c, none⟩ = p at hplace
  obtain ⟨i, l'⟩ := p
  simp only at hplace ⊢
  cases l'.tail with
  | none => exact hplace
  | some t =>
    simp only [Array.size_modify]
    exact hplace

theorem size_take (l : FreeList) (words : Nat) : (l.take words).2.nodes.size = l.nodes.size := by
  have hdebit (l : FreeList) (a : Address) : (l.debit words a).2.nodes = l.nodes := by
    unfold debit
    split <;> rfl
  unfold take
  split
  · rfl
  · next prev i _ =>
    simp only
    split
    · rw [hdebit]
      unfold unlink
      cases prev <;> simp only [Array.size_modify]
    · split
      · rfl
      · rw [hdebit]
        simp only [Array.size_modify]

/-! ## One request -/

theorem append_eq (h : l.Represents cs) (hsum : (cs.map (·.words)).sum + c.words < addressLimit) :
    l.append c = (.ok (l.push c).1, (l.push c).2) := by
  have hfree := (h.push c).freeWords
  rw [List.map_append, List.sum_append, List.map_singleton, List.sum_singleton] at hfree
  unfold append
  simp only [hfree, if_pos hsum]

/-- **Taking is first fit**, and answers as the plain list does. -/
theorem take_spec (h : l.Represents cs) (ho : Ordered cs) (words : Nat) :
    (l.take words).1 = .ok ((cs.find? fun c => decide (words ≤ c.words)).map (·.start)) ∧
      (l.take words).2.Represents (cut words cs) ∧ Ordered (cut words cs) := by
  rcases small_or_first cs words with hsmall | ⟨pre, c, post, rfl, hpre, hc⟩
  · rw [h.take_none words hsmall, find?_eq_none_of_small hsmall, cut_of_small hsmall]
    exact ⟨rfl, h, ho⟩
  · have hend : c.start + words * wordBytes < addressLimit :=
      Nat.lt_of_le_of_lt (Nat.add_le_add_left (Nat.mul_le_mul_right _ hc) _) (ho.bounded c (by simp))
    obtain ⟨l', hrun, hrep⟩ := h.take_some words hpre hc hend
    rw [hrun, find?_eq_some_of_first hpre hc, cut_of_first hc hpre]
    exact ⟨rfl, hrep, ho.cut hc⟩

/-- **Every request is served as by a plain list.** -/
theorem serve_spec (h : l.Represents cs) (ho : Ordered cs) (r : Request) (hr : r.Allowed cs) :
    (r.serve l).1 = .ok (r.plain cs).1 ∧ (r.serve l).2.Represents (r.plain cs).2 ∧ Ordered (r.plain cs).2 ∧
      (r.serve l).2.nodes.size ≤ max l.nodes.size (r.plain cs).2.length := by
  cases r with
  | append c =>
    obtain ⟨hpos, hlast, hend, hsum⟩ := hr
    simp only [Request.serve, Request.plain, append_eq h hsum]
    refine ⟨rfl, h.push c, ho.concat hpos hlast hend, ?_⟩
    rw [List.length_append, List.length_singleton]
    exact size_push h c
  | take words =>
    obtain ⟨hanswer, hrep, hord⟩ := take_spec h ho words
    refine ⟨hanswer, hrep, hord, ?_⟩
    rw [Request.serve, size_take]
    exact Nat.le_max_left _ _
  | clear => exact ⟨rfl, represents_clear l, .nil, Nat.le_max_left _ _⟩

/-! ## Runs of requests -/

theorem Serves.spec (h : Serves l cs peak) : l.Represents cs ∧ Ordered cs ∧ l.nodes.size ≤ peak := by
  induction h with
  | empty => exact ⟨represents_empty, .nil, Nat.le_refl 0⟩
  | step _ r allowed ih =>
    obtain ⟨hrep, hord, hsize⟩ := ih
    obtain ⟨-, hrep', hord', hsize'⟩ := serve_spec hrep hord r allowed
    refine ⟨hrep', hord', Nat.le_trans hsize' (Nat.max_le.2 ⟨?_, Nat.le_max_right _ _⟩)⟩
    exact Nat.le_trans hsize (Nat.le_max_left _ _)

/-- A chunk that was taken from is the first one that is large enough, and so the lowest one. -/
theorem lowest_of_find? (ho : Ordered cs) (hf : (cs.find? fun c => decide (words ≤ c.words)) = some c) :
    c ∈ cs ∧ words ≤ c.words ∧ ∀ d ∈ cs, words ≤ d.words → c.start ≤ d.start := by
  obtain ⟨hc, pre, post, rfl, hpre⟩ := List.find?_eq_some_iff_append.1 hf
  refine ⟨by simp, of_decide_eq_true hc, ?_⟩
  intro d hd hfit
  rcases List.mem_append.1 hd with hd | hd
  · have := hpre d hd
    simp only [Bool.not_eq_true', decide_eq_false_iff_not] at this
    exact absurd hfit this
  · rcases List.mem_cons.1 hd with rfl | hd
    · exact Nat.le_refl _
    · have hafter := (List.pairwise_cons.1 (List.pairwise_append.1 ho.ascending).2.1).1 d hd
      exact Nat.le_trans (Nat.le_add_right _ _) hafter

/-- **The arena list refines the plain list** after any requests. -/
theorem Serves.refines (h : Serves l cs peak) : l.Refines cs peak := by
  obtain ⟨hrep, hord, hsize⟩ := h.spec
  have htake (words : Nat) := (take_spec hrep hord words).1
  have hrefuses (words : Nat) : (l.take words).1 = .ok none ↔ ∀ c ∈ cs, c.words < words := by
    rw [htake, Except.ok.injEq, Option.map_eq_none_iff, List.find?_eq_none]
    simp
  constructor
  case represents => exact hrep
  case ordered => exact hord
  case iterates =>
    obtain ⟨ps, hp, rfl⟩ := hrep
    intro n hn
    exact chunksFrom_eq hp.linked (by rwa [List.length_map] at hn)
  case chunks => exact hrep.chunks
  case length => exact hrep.length
  case freeWords => exact hrep.freeWords
  case answers => exact fun r hr => (serve_spec hrep hord r hr).1
  case leads => exact fun r hr => (serve_spec hrep hord r hr).2.1.chunks
  case refuses => exact hrefuses
  case unchanged =>
    intro words hnone
    rw [hrep.take_none words ((hrefuses words).1 hnone)]
  case lowest =>
    intro words a ha
    rw [htake, Except.ok.injEq, Option.map_eq_some_iff] at ha
    obtain ⟨c, hf, rfl⟩ := ha
    obtain ⟨hmem, hfit, hlow⟩ := lowest_of_find? hord hf
    exact ⟨c, hmem, rfl, hfit, hlow⟩
  case arena => exact hsize

/-- A chunk is unlinked between two others, its place is used again, and the next chunk that is large enough is split:
three nodes do for the four chunks that were appended. -/
theorem exists_refined : ∃ l cs, Serves l cs 3 ∧ l.Refines cs 3 ∧ l.nodes.size = 3 ∧
    cs = [⟨4096, 2⟩, ⟨12328, 1⟩, ⟨16384, 3⟩] := by
  have h₁ := Serves.empty.step (.append ⟨4096, 2⟩) (by decide)
  have h₂ := h₁.step (.append ⟨8192, 4⟩) (by decide)
  have h₃ := h₂.step (.append ⟨12288, 6⟩) (by decide)
  have h₄ := h₃.step (.take 4) trivial
  have h₅ := h₄.step (.append ⟨16384, 3⟩) (by decide)
  have h₆ := h₅.step (.take 5) trivial
  exact ⟨_, _, h₆, h₆.refines, rfl, rfl⟩

end FreeList
end MarkSweep
