import MarkSweep.Space.FreeList
import Mathlib.Algebra.Ring.Nat
/-!
# The free list is a list of chunks

Nodes live in an arena and name each other by index.  `Represents l cs` says that the list means the chunks `cs`: the
links lead from the head through exactly these, the counters count them, and every arena index is linked or vacant.
`push`, `clear` and `take` are then what they are on plain lists.
-/
namespace MarkSweep
namespace FreeList

/-- A chunk and the arena index of its node. -/
abbrev Placed := Nat × Chunk

/-! ## Segments of the links -/

/-- The links lead from cursor `a` through the given nodes, in order, to cursor `b`. -/
def Segment (nodes : Array FreeNode) : Option Nat → List Placed → Option Nat → Prop
  | a, [], b => a = b
  | a, (i, c) :: rest, b => a = some i ∧ ∃ next, nodes[i]? = some ⟨c, next⟩ ∧ Segment nodes next rest b

theorem segment_append {nodes : Array FreeNode} : ∀ {xs ys : List Placed} {a b : Option Nat},
    Segment nodes a (xs ++ ys) b ↔ ∃ m, Segment nodes a xs m ∧ Segment nodes m ys b
  | [], ys, a, b => by simp [Segment]
  | (i, c) :: xs, ys, a, b => by
    simp only [List.cons_append, Segment, @segment_append nodes xs]
    constructor
    · rintro ⟨ha, next, hn, m, h1, h2⟩
      exact ⟨m, ⟨ha, next, hn, h1⟩, h2⟩
    · rintro ⟨m, ⟨ha, next, hn, h1⟩, h2⟩
      exact ⟨ha, next, hn, m, h1, h2⟩

theorem Segment.congr {nodes nodes' : Array FreeNode} : ∀ {xs : List Placed} {a b : Option Nat},
    Segment nodes a xs b → (∀ i ∈ xs.map (·.1), nodes'[i]? = nodes[i]?) → Segment nodes' a xs b
  | [], _, _, h, _ => h
  | (i, c) :: xs, a, b, ⟨ha, next, hn, h⟩, heq =>
    ⟨ha, next, by rw [heq i (by simp), hn], Segment.congr h fun j hj => heq j (by simp at hj ⊢; exact .inr hj)⟩

theorem getElem?_modify_of_ne {nodes : Array FreeNode} {i j : Nat} (f : FreeNode → FreeNode) (h : i ≠ j) :
    (nodes.modify i f)[j]? = nodes[j]? := by
  rw [Array.getElem?_modify, if_neg h]

/-- Redirecting the last node of a segment moves its end. -/
theorem Segment.relink {nodes : Array FreeNode} {xs : List Placed} {t : Nat} {c : Chunk} {a b : Option Nat}
    (h : Segment nodes a (xs ++ [(t, c)]) b) (hnd : ((xs ++ [(t, c)]).map (·.1)).Nodup) (b' : Option Nat) :
    Segment (nodes.modify t ({ · with next := b' })) a (xs ++ [(t, c)]) b' := by
  obtain ⟨m, h1, rfl, next, hn, rfl⟩ := segment_append.1 h
  have hnot : t ∉ xs.map (·.1) := by
    simp only [List.map_append, List.map_cons, List.map_nil, List.nodup_append, List.mem_singleton] at hnd
    exact fun ht => hnd.2.2 t ht t rfl rfl
  refine segment_append.2 ⟨some t, h1.congr fun i hi => getElem?_modify_of_ne _ fun he => hnot (he ▸ hi), rfl, b', ?_, rfl⟩
  rw [Array.getElem?_modify, if_pos rfl, hn]
  rfl

theorem chunksFrom_eq {nodes : Array FreeNode} : ∀ {ps : List Placed} {n : Nat} {a : Option Nat},
    Segment nodes a ps none → ps.length ≤ n → chunksFrom nodes n a = ps.map (·.2)
  | [], n, _, rfl, _ => by cases n <;> rfl
  | (i, c) :: ps, 0, _, _, hlen => by simp at hlen
  | (i, c) :: ps, n + 1, _, ⟨rfl, next, hn, h⟩, hlen => by
    simp only [chunksFrom, hn, List.map_cons, chunksFrom_eq h (by simp at hlen; omega)]

/-! ## Representation -/

/-- The list means the chunks of the given nodes. -/
structure Holds (l : FreeList) (ps : List Placed) : Prop where
  linked : Segment l.nodes l.head ps none
  tail : l.tail = ps.getLast?.map (·.1)
  length : l.length = ps.length
  freeWords : l.freeWords = (ps.map (·.2.words)).sum
  /-- Every arena index is linked or vacant, and not both. -/
  arena : (ps.map (·.1) ++ l.vacant).Perm (List.range l.nodes.size)

/-- The list means these chunks. -/
def Represents (l : FreeList) (cs : List Chunk) : Prop := ∃ ps, l.Holds ps ∧ ps.map (·.2) = cs

namespace Holds

variable {l : FreeList} {ps : List Placed}

theorem nodup (h : l.Holds ps) : (ps.map (·.1) ++ l.vacant).Nodup := h.arena.nodup_iff.2 List.nodup_range

theorem nodup_linked (h : l.Holds ps) : (ps.map (·.1)).Nodup := (List.nodup_append.1 h.nodup).1

theorem lt_size (h : l.Holds ps) {i : Nat} (hi : i ∈ ps.map (·.1) ++ l.vacant) : i < l.nodes.size :=
  List.mem_range.1 (h.arena.mem_iff.1 hi)

theorem length_le (h : l.Holds ps) : ps.length ≤ l.nodes.size := by
  have := h.arena.length_eq
  simp only [List.length_append, List.length_map, List.length_range] at this
  omega

end Holds

theorem Represents.chunks {l : FreeList} {cs : List Chunk} (h : l.Represents cs) : l.chunks = cs := by
  obtain ⟨ps, hp, rfl⟩ := h
  exact chunksFrom_eq hp.linked hp.length_le

theorem Represents.length {l : FreeList} {cs : List Chunk} (h : l.Represents cs) : l.length = cs.length := by
  obtain ⟨ps, hp, rfl⟩ := h
  rw [hp.length, List.length_map]

theorem Represents.freeWords {l : FreeList} {cs : List Chunk} (h : l.Represents cs) :
    l.freeWords = (cs.map (·.words)).sum := by
  obtain ⟨ps, hp, rfl⟩ := h
  rw [hp.freeWords, List.map_map]
  rfl

theorem represents_empty : empty.Represents [] :=
  ⟨[], ⟨rfl, rfl, rfl, rfl, .refl _⟩, rfl⟩

theorem represents_clear (l : FreeList) : l.clear.Represents [] :=
  ⟨[], ⟨rfl, rfl, rfl, rfl, .refl _⟩, rfl⟩

/-! ## Appending -/

theorem Holds.place {l : FreeList} {ps : List Placed} (h : l.Holds ps) (node : FreeNode) :
    let p := l.place node
    p.1 ∉ ps.map (·.1) ∧ p.2.nodes[p.1]? = some node ∧ (∀ i ∈ ps.map (·.1), p.2.nodes[i]? = l.nodes[i]?) ∧
      (ps.map (·.1) ++ p.1 :: p.2.vacant).Perm (List.range p.2.nodes.size) ∧
      p.2.head = l.head ∧ p.2.tail = l.tail ∧ p.2.length = l.length ∧ p.2.freeWords = l.freeWords := by
  have hnd := h.nodup
  have harena := h.arena
  unfold FreeList.place
  cases hv : l.vacant with
  | nil =>
    rw [hv, List.append_nil] at harena
    have hlt : ∀ i ∈ ps.map (·.1), i < l.nodes.size := fun i hi => h.lt_size (List.mem_append_left _ hi)
    refine ⟨fun hm => Nat.lt_irrefl _ (hlt _ hm), by simp, ?_, ?_, rfl, rfl, rfl, rfl⟩
    · intro i hi
      rw [Array.getElem?_push, if_neg (by have := hlt i hi; omega)]
    · simp only [Array.size_push, List.range_succ]
      exact List.Perm.append_right _ harena
  | cons i rest =>
    rw [hv] at hnd harena
    have hi : i < l.nodes.size := h.lt_size (by rw [hv]; simp)
    have hnot : i ∉ ps.map (·.1) := fun hm => (List.nodup_append.1 hnd).2.2 i hm i (by simp) rfl
    refine ⟨hnot, by simp [hi], ?_, by simpa using harena, rfl, rfl, rfl, rfl⟩
    intro j hj
    exact Array.getElem?_setIfInBounds_ne fun he : i = j => hnot (he ▸ hj)

/-- **Appending adds the chunk at the end.** -/
theorem Represents.push {l : FreeList} {cs : List Chunk} (h : l.Represents cs) (c : Chunk) :
    (l.push c).2.Represents (cs ++ [c]) := by
  obtain ⟨ps, hp, rfl⟩ := h
  obtain ⟨hnot, hnode, hother, harena, hhead, htail, hlen, hfree⟩ := hp.place ⟨c, none⟩
  unfold FreeList.push
  revert hnot hnode hother harena hhead htail hlen hfree
  generalize l.place ⟨c, none⟩ = p
  obtain ⟨i, l'⟩ := p
  simp only
  intro hnot hnode hother harena hhead htail hlen hfree
  have hold : Segment l'.nodes l'.head ps none := hhead ▸ hp.linked.congr hother
  refine ⟨ps ++ [(i, c)], ⟨?linked, by simp, ?length, ?free, ?arena⟩, by simp⟩
  case linked =>
    rcases List.eq_nil_or_concat ps with rfl | ⟨xs, ⟨t, d⟩, rfl⟩
    · rw [show l'.tail = none by rw [htail, hp.tail]; rfl]
      exact ⟨rfl, none, hnode, rfl⟩
    · rw [List.concat_eq_append] at *
      rw [show l'.tail = some t by rw [htail, hp.tail]; simp]
      have hne : t ≠ i := fun he => hnot (by simp [he])
      refine segment_append.2 ⟨some i, hold.relink hp.nodup_linked _, rfl, none, ?_, rfl⟩
      exact (getElem?_modify_of_ne _ hne).trans hnode
  case length =>
    cases l'.tail <;> simp [hlen, hp.length]
  case free =>
    cases l'.tail <;> simp [hfree, hp.freeWords]
  case arena =>
    have : (List.map (·.1) (ps ++ [(i, c)]) ++ l'.vacant).Perm (List.range l'.nodes.size) := by
      simpa using harena
    cases l'.tail <;> simpa using this

/-! ## First fit -/

/-- The search gives the first node with enough words, and the node before it. -/
theorem findFit_spec {nodes : Array FreeNode} (words : Nat) :
    ∀ {ps : List Placed} {n : Nat} (prev : Option Nat) {a : Option Nat},
    Segment nodes a ps none → ps.length ≤ n →
      (findFit nodes words n prev a = none ∧ ∀ p ∈ ps, p.2.words < words) ∨
      ∃ pre i c post, ps = pre ++ (i, c) :: post ∧ (∀ p ∈ pre, p.2.words < words) ∧ words ≤ c.words ∧
        findFit nodes words n prev a = some ((pre.getLast?.map (·.1)).or prev, i)
  | [], n, prev, _, rfl, _ => by
    left
    cases n <;> exact ⟨rfl, fun p hp => by cases hp⟩
  | (i, c) :: ps, 0, prev, a, _, hlen => by simp at hlen
  | (i, c) :: ps, n + 1, prev, _, ⟨rfl, next, hn, h⟩, hlen => by
    simp only [findFit, hn]
    by_cases hfit : words ≤ c.words
    · right
      exact ⟨[], i, c, ps, rfl, fun p hp => (by cases hp), hfit, by rw [if_pos hfit]; rfl⟩
    · rw [if_neg hfit]
      rcases findFit_spec words (some i) h (by simp at hlen; omega) with ⟨hf, hall⟩ | ⟨pre, j, d, post, rfl, hpre, hd, hf⟩
      · left
        refine ⟨hf, ?_⟩
        intro p hp
        rcases List.mem_cons.1 hp with rfl | hp
        · exact Nat.lt_of_not_le hfit
        · exact hall p hp
      · right
        refine ⟨(i, c) :: pre, j, d, post, rfl, ?_, hd, ?_⟩
        · intro p hp
          rcases List.mem_cons.1 hp with rfl | hp
          · exact Nat.lt_of_not_le hfit
          · exact hpre p hp
        · rw [hf, List.getLast?_cons]
          cases pre.getLast? <;> rfl

theorem Holds.unlink {l : FreeList} {pre post : List Placed} {i : Nat} {c : Chunk}
    (h : l.Holds (pre ++ (i, c) :: post)) :
    let l' := l.unlink (pre.getLast?.map (·.1)) i
    Segment l'.nodes l'.head (pre ++ post) none ∧ l'.tail = (pre ++ post).getLast?.map (·.1) ∧
      l'.length = (pre ++ post).length ∧ l'.freeWords = l.freeWords ∧
      ((pre ++ post).map (·.1) ++ l'.vacant).Perm (List.range l'.nodes.size) := by
  obtain ⟨m, hpre, rfl, next, hn, hpost⟩ := segment_append.1 h.linked
  have hnd := h.nodup_linked
  have hnext : (l.nodes[i]?.bind (·.next)) = next := by rw [hn]; rfl
  have htail : (if l.tail = some i then pre.getLast?.map (·.1) else l.tail) = (pre ++ post).getLast?.map (·.1) := by
    rw [h.tail]
    rcases List.eq_nil_or_concat post with rfl | ⟨zs, ⟨t, d⟩, hz⟩
    · simp
    · rw [List.concat_eq_append] at hz
      subst hz
      have hne : t ≠ i := by
        intro he
        subst he
        simp only [List.map_append, List.map_cons, List.nodup_append, List.nodup_cons] at hnd
        exact hnd.2.1.1 (by simp)
      have h1 : (pre ++ (i, c) :: (zs ++ [(t, d)])).getLast? = some (t, d) := by
        rw [← List.cons_append, ← List.append_assoc, List.getLast?_concat]
      have h2 : (pre ++ (zs ++ [(t, d)])).getLast? = some (t, d) := by rw [← List.append_assoc, List.getLast?_concat]
      rw [h1, h2, Option.map_some, if_neg (by simpa using hne)]
  have hlen : l.length - 1 = (pre ++ post).length := by rw [h.length]; simp
  have hperm : ((pre ++ post).map (·.1) ++ i :: l.vacant).Perm (List.range l.nodes.size) := by
    refine List.Perm.trans ?_ h.arena
    simp only [List.map_append, List.map_cons, List.append_assoc, List.cons_append]
    apply List.Perm.append_left _
    exact List.perm_middle
  unfold FreeList.unlink
  rcases List.eq_nil_or_concat pre with rfl | ⟨xs, ⟨t, d⟩, rfl⟩
  · refine ⟨?_, htail, hlen, rfl, hperm⟩
    simp only [List.getLast?_nil, Option.map_none, List.nil_append, hnext]
    exact hpost
  · rw [List.concat_eq_append] at *
    rw [List.getLast?_concat, Option.map_some] at *
    refine ⟨?_, htail, hlen, rfl, by rw [Array.size_modify]; exact hperm⟩
    rw [hnext]
    have hnd1 : ((xs ++ [(t, d)]).map (·.1)).Nodup := by
      rw [List.map_append] at hnd
      exact (List.nodup_append.1 hnd).1
    refine segment_append.2 ⟨next, hpre.relink hnd1 next, hpost.congr fun j hj => getElem?_modify_of_ne _ fun he => ?_⟩
    rw [List.map_append] at hnd
    exact (List.nodup_append.1 hnd).2.2 t (by simp) j (by simp [hj]) he

theorem Holds.shrink {l : FreeList} {pre post : List Placed} {i : Nat} {c : Chunk}
    (h : l.Holds (pre ++ (i, c) :: post)) (c' : Chunk) :
    let nodes := l.nodes.modify i ({ · with chunk := c' })
    Segment nodes l.head (pre ++ (i, c') :: post) none ∧
      ((pre ++ (i, c') :: post).map (·.1) ++ l.vacant).Perm (List.range nodes.size) := by
  obtain ⟨m, hpre, rfl, next, hn, hpost⟩ := segment_append.1 h.linked
  have hnd := h.nodup_linked
  simp only [List.map_append, List.map_cons, List.nodup_append, List.nodup_cons] at hnd
  refine ⟨segment_append.2 ⟨some i, hpre.congr fun j hj => getElem?_modify_of_ne _ fun he => ?_, rfl, next, ?_, ?_⟩, ?_⟩
  · exact hnd.2.2 j hj i (by simp) he.symm
  · rw [Array.getElem?_modify, if_pos rfl, hn]; rfl
  · exact hpost.congr fun j hj => getElem?_modify_of_ne _ fun he => hnd.2.1.1 (he ▸ hj)
  · rw [Array.size_modify]
    simpa using h.arena

/-- What is left of the chunks once `words` words were cut off the low end of `c`. -/
def remainder (c : Chunk) (words : Nat) : List Chunk :=
  if c.words = words then [] else [⟨c.start + words * wordBytes, c.words - words⟩]

/-- **Nothing is taken where no chunk is large enough.** -/
theorem Represents.take_none {l : FreeList} {cs : List Chunk} (h : l.Represents cs) (words : Nat)
    (hall : ∀ c ∈ cs, c.words < words) : l.take words = (.ok none, l) := by
  obtain ⟨ps, hp, rfl⟩ := h
  rcases findFit_spec words none hp.linked hp.length_le with ⟨hf, -⟩ | ⟨pre, i, c, post, rfl, -, hc, -⟩
  · rw [FreeList.take, hf]
  · have := hall c (by simp)
    omega

/-- **Taking cuts the low end off the first chunk that is large enough**, which leaves the list if nothing of it is
left. -/
theorem Represents.take_some {l : FreeList} {pre post : List Chunk} {c : Chunk}
    (h : l.Represents (pre ++ c :: post)) (words : Nat) (hpre : ∀ d ∈ pre, d.words < words) (hc : words ≤ c.words)
    (hend : c.start + words * wordBytes < addressLimit) :
    ∃ l', l.take words = (.ok (some c.start), l') ∧ l'.Represents (pre ++ remainder c words ++ post) := by
  obtain ⟨ps, hp, hcs⟩ := h
  obtain ⟨qs, rs, rfl, rfl, hrs⟩ := List.map_eq_append_iff.1 hcs
  obtain ⟨⟨i, d⟩, ts, rfl, rfl, rfl⟩ := List.map_eq_cons_iff.1 hrs
  simp only at hc hend ⊢
  have hfind : findFit l.nodes words l.nodes.size none l.head = some (qs.getLast?.map (·.1), i) := by
    rcases findFit_spec words none hp.linked hp.length_le with
      ⟨-, hall⟩ | ⟨pre', i', c', post', heq, hpre', hc', hf⟩
    · have := hall (i, d) (by simp)
      simp only at this; omega
    · rw [Option.or_none] at hf
      rcases List.append_eq_append_iff.1 heq with ⟨as, rfl, has⟩ | ⟨as, rfl, has⟩
      · cases as with
        | nil =>
          simp only [List.nil_append, List.cons.injEq, Prod.mk.injEq] at has
          rw [hf, List.append_nil, has.1.1]
        | cons a as =>
          simp only [List.cons_append, List.cons.injEq] at has
          have := hpre' a (by simp)
          rw [← has.1] at this
          simp only at this; omega
      · cases as with
        | nil =>
          simp only [List.nil_append, List.cons.injEq, Prod.mk.injEq] at has
          rw [hf, List.append_nil, has.1.1]
        | cons a as =>
          simp only [List.cons_append, List.cons.injEq] at has
          have := hpre c' (by simp [← has.1])
          omega
  have hget : (l.nodes[i]?.getD default).chunk = d := by
    obtain ⟨m, -, rfl, next, hn, -⟩ := segment_append.1 hp.linked
    rw [hn]; rfl
  have hsum : words ≤ l.freeWords := by
    rw [hp.freeWords]
    simp only [List.map_append, List.map_cons, List.sum_append, List.sum_cons]
    omega
  unfold FreeList.take
  simp only [hfind, hget]
  by_cases heq : d.words = words
  · obtain ⟨hseg, htail, hlen, hfree, harena⟩ := hp.unlink
    rw [if_pos heq, debit, hfree, if_pos hsum]
    refine ⟨_, rfl, qs ++ ts, ⟨hseg, htail, hlen, ?_, harena⟩, by simp [remainder, heq]⟩
    rw [hp.freeWords]
    simp only [List.map_append, List.map_cons, List.sum_append, List.sum_cons]
    omega
  · obtain ⟨hseg, harena⟩ := hp.shrink ⟨d.start + words * wordBytes, d.words - words⟩
    have hadd : d.start.addWords words = .ok (d.start + words * wordBytes) := by
      have hmul : words * wordBytes < addressLimit := Nat.lt_of_le_of_lt (Nat.le_add_left _ _) hend
      simp [Address.addWords, checkedMul, checkedAdd, hmul, hend, bind, Except.bind]
    rw [if_neg heq, hadd]
    simp only [debit, if_pos hsum]
    refine ⟨_, rfl, qs ++ (i, ⟨d.start + words * wordBytes, d.words - words⟩) :: ts, ⟨hseg, ?_, ?_, ?_, harena⟩,
      by simp [remainder, heq]⟩
    · rw [hp.tail]
      cases ts <;> simp [List.getLast?_append, List.getLast?_cons]
    · rw [hp.length]; simp
    · rw [hp.freeWords]
      simp only [List.map_append, List.map_cons, List.sum_append, List.sum_cons]
      omega

end FreeList
end MarkSweep
