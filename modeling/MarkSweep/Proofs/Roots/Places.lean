import Mathlib.Logic.Function.Basic
import MarkSweep.Proofs.Roots
/-!
# Visits slot by slot

A root slot is a `RootPlace`: a position in a source, or among the roots of the stopped threads.  A visit touches places
one after the other (`Roots.touch`).  It sees what a place holds by then, changes this place alone, and so leaves in
every place what it gave there last (`Roots.look_last`).
-/
namespace MarkSweep

/-- The same kind of slot with other content. -/
def Reference.refill : Reference → Nat → Reference
  | wide _, n => wide n
  | narrow _, n => narrow n

/-- What has root slots. -/
inductive RootOwner where
  | source (s : RootSource)
  | threads
  deriving DecidableEq

structure RootPlace where
  owner : RootOwner
  index : Nat
  deriving DecidableEq

namespace Roots

variable {σ : Type}

/-! ## Places and owners -/

section Spec

variable (visitor : σ → Reference → σ × Nat) (c : RootOwner → List Reference)

def look (p : RootPlace) : Option Reference := (c p.owner)[p.index]?

/-- The slots of some owners: owner by owner, and for each by index. -/
def places (owners : List RootOwner) : List RootPlace :=
  owners.flatMap fun o => (List.range (c o).length).map (RootPlace.mk o)

/-- Visits one place: `visitor` sees what the place holds and gives what it holds afterwards. -/
def touch (q : σ × (RootOwner → List Reference)) (p : RootPlace) : σ × (RootOwner → List Reference) :=
  match look q.2 p with
  | none => q
  | some x => ((visitor q.1 x).1, Function.update q.2 p.owner ((q.2 p.owner).set p.index (x.refill (visitor q.1 x).2)))

/-- Visits a list of slots from its head on. -/
def visitList : σ → List Reference → σ × List Reference
  | state, [] => (state, [])
  | state, x :: l =>
    ((visitList (visitor state x).1 l).1, x.refill (visitor state x).2 :: (visitList (visitor state x).1 l).2)

def visitOwner (q : σ × (RootOwner → List Reference)) (o : RootOwner) : σ × (RootOwner → List Reference) :=
  ((visitList visitor q.1 (q.2 o)).1, Function.update q.2 o (visitList visitor q.1 (q.2 o)).2)

end Spec

/-- What all root slots hold. -/
def contents (r : Roots) (threadRoots : List Address) : RootOwner → List Reference
  | .source s => r.references s
  | .threads => threadRoots.map .wide

/-- The sources in visiting order. -/
def agenda (sources : List (RootKind × RootSource)) : List (RootKind × RootSource) :=
  RootKind.order.flatMap fun kind => sources.filter (·.1 == kind)

/-- Who is visited: the sources in their order, the threads last. -/
def owners (sources : List (RootKind × RootSource)) : List RootOwner :=
  (agenda sources).map (fun s => .source s.2) ++ [.threads]

variable {visitor : σ → Reference → σ × Nat} {c c' : RootOwner → List Reference} {o : RootOwner} {p p' : RootPlace}
  {state : σ} {r : Roots} {threadRoots : List Address}

theorem mem_places {os : List RootOwner} : p ∈ places c os ↔ p.owner ∈ os ∧ p.index < (c p.owner).length := by
  unfold places
  simp only [List.mem_flatMap, List.mem_map, List.mem_range]
  constructor
  · rintro ⟨o, ho, i, hi, rfl⟩
    exact ⟨ho, hi⟩
  · rintro ⟨ho, hi⟩
    exact ⟨p.owner, ho, p.index, hi, rfl⟩

theorem places_congr (h : ∀ o, (c' o).length = (c o).length) (os : List RootOwner) : places c' os = places c os := by
  unfold places
  simp only [h]

/-! ## One place -/

theorem touch_of_look {x : Reference} (h : look c p = some x) : touch visitor (state, c) p =
    ((visitor state x).1, Function.update c p.owner ((c p.owner).set p.index (x.refill (visitor state x).2))) := by
  unfold touch
  rw [h]

theorem look_touch_self {x : Reference} (h : look c p = some x) :
    look (touch visitor (state, c) p).2 p = some (x.refill (visitor state x).2) := by
  obtain ⟨hlt, -⟩ := List.getElem?_eq_some_iff.1 h
  rw [touch_of_look h]
  simp only [look, Function.update_self]
  rw [List.getElem?_set_self hlt]

/-- **A touch changes no other place.** -/
theorem look_touch_of_ne (q : σ × (RootOwner → List Reference)) (h : p ≠ p') :
    look (touch visitor q p).2 p' = look q.2 p' := by
  unfold touch
  cases look q.2 p with
  | none => rfl
  | some x =>
    simp only [look]
    by_cases ho : p'.owner = p.owner
    · have hi : p.index ≠ p'.index := by
        intro hi
        apply h
        cases p
        cases p'
        simp_all
      rw [ho, Function.update_self, List.getElem?_set_ne hi]
    · rw [Function.update_of_ne ho]

theorem isWide_refill (x : Reference) (n : Nat) : (x.refill n).isWide = x.isWide := by
  cases x <;> rfl

theorem map_set_refill {l : List Reference} {i n : Nat} {x : Reference} (h : l[i]? = some x) :
    (l.set i (x.refill n)).map Reference.isWide = l.map Reference.isWide := by
  obtain ⟨hlt, rfl⟩ := List.getElem?_eq_some_iff.1 h
  rw [List.map_set, isWide_refill, ← List.getElem_map Reference.isWide (h := by simpa using hlt), List.set_getElem_self]

/-- A touch keeps the slots, and their widths. -/
theorem widths_touch (q : σ × (RootOwner → List Reference)) (p : RootPlace) (o : RootOwner) :
    ((touch visitor q p).2 o).map Reference.isWide = (q.2 o).map Reference.isWide := by
  unfold touch
  cases hx : look q.2 p with
  | none => rfl
  | some x =>
    simp only
    by_cases ho : o = p.owner
    · rw [ho, Function.update_self, map_set_refill hx]
    · rw [Function.update_of_ne ho]

/-! ## Places one after the other -/

theorem look_foldl_of_not_mem : ∀ {ps : List RootPlace}, p ∉ ps → ∀ q : σ × (RootOwner → List Reference),
    look (ps.foldl (touch visitor) q).2 p = look q.2 p
  | [], _, _ => rfl
  | p' :: ps, h, q => by
    rw [List.mem_cons, not_or] at h
    rw [List.foldl_cons, look_foldl_of_not_mem h.2, look_touch_of_ne q (Ne.symm h.1)]

theorem widths_foldl (visitor : σ → Reference → σ × Nat) : ∀ (ps : List RootPlace)
    (q : σ × (RootOwner → List Reference)) (o : RootOwner),
    ((ps.foldl (touch visitor) q).2 o).map Reference.isWide = (q.2 o).map Reference.isWide
  | [], _, _ => rfl
  | p :: ps, q, o => by
    rw [List.foldl_cons, widths_foldl visitor ps, widths_touch]

theorem length_foldl (ps : List RootPlace) (q : σ × (RootOwner → List Reference)) (o : RootOwner) :
    ((ps.foldl (touch visitor) q).2 o).length = (q.2 o).length := by
  have h := congrArg List.length (widths_foldl visitor ps q o)
  rwa [List.length_map, List.length_map] at h

/-- **A place holds in the end what was given where it was visited last.** -/
theorem look_last {os : List RootOwner} {pre post : List RootPlace} (hps : places c os = pre ++ p :: post)
    (hp : p ∉ post) : ∃ x, look (pre.foldl (touch visitor) (state, c)).2 p = some x ∧
      look ((places c os).foldl (touch visitor) (state, c)).2 p =
        some (x.refill (visitor (pre.foldl (touch visitor) (state, c)).1 x).2) := by
  have hmem : p ∈ places c os := hps ▸ List.mem_append_right _ (List.mem_cons_self ..)
  have hlt : p.index < ((pre.foldl (touch visitor) (state, c)).2 p.owner).length := by
    rw [length_foldl]
    exact (mem_places.1 hmem).2
  refine ⟨_, List.getElem?_eq_getElem hlt, ?_⟩
  rw [hps, List.foldl_append, List.foldl_cons, look_foldl_of_not_mem hp]
  exact look_touch_self (List.getElem?_eq_getElem hlt)

/-! ## Owner by owner -/

theorem visitList_append (visitor : σ → Reference → σ × Nat) : ∀ (l l' : List Reference) (state : σ),
    visitList visitor state (l ++ l') = ((visitList visitor (visitList visitor state l).1 l').1,
      (visitList visitor state l).2 ++ (visitList visitor (visitList visitor state l).1 l').2)
  | [], _, _ => rfl
  | x :: l, l', state => by
    rw [List.cons_append, visitList, visitList_append visitor l l', visitList]
    rfl

/-- The slots of one owner are touched from the first on. -/
theorem foldl_touch_rest (visitor : σ → Reference → σ × Nat) (o : RootOwner) : ∀ (rest done : List Reference) (state : σ)
    (c : RootOwner → List Reference), c o = done ++ rest →
    ((List.range rest.length).map fun i => RootPlace.mk o (done.length + i)).foldl (touch visitor) (state, c) =
      ((visitList visitor state rest).1, Function.update c o (done ++ (visitList visitor state rest).2))
  | [], done, state, c, h => by
    rw [List.append_nil] at h
    show (state, c) = (state, Function.update c o (done ++ []))
    rw [List.append_nil, ← h, Function.update_eq_self]
  | x :: rest, done, state, c, h => by
    have hlook : look c ⟨o, done.length⟩ = some x := by
      rw [look, h, List.getElem?_append_right (Nat.le_refl _), Nat.sub_self]
      rfl
    have hset : (done ++ x :: rest).set done.length (x.refill (visitor state x).2) =
        (done ++ [x.refill (visitor state x).2]) ++ rest := by
      rw [List.set_append_right _ _ (Nat.le_refl _), Nat.sub_self, List.set_cons_zero, List.append_assoc]
      rfl
    have hnext := foldl_touch_rest visitor o rest (done ++ [x.refill (visitor state x).2]) (visitor state x).1
      (Function.update c o ((done ++ [x.refill (visitor state x).2]) ++ rest)) (Function.update_self ..)
    rw [List.length_append, List.length_singleton, Function.update_idem] at hnext
    have hindex : (fun i => RootPlace.mk o (done.length + i)) ∘ Nat.succ =
        fun i => RootPlace.mk o (done.length + 1 + i) := by
      funext i
      show RootPlace.mk o (done.length + (i + 1)) = _
      rw [← Nat.add_assoc, Nat.add_right_comm]
    rw [List.length_cons, List.range_succ_eq_map, List.map_cons, List.foldl_cons, Nat.add_zero, touch_of_look hlook,
      List.map_map]
    simp only [h, hset]
    rw [hindex, hnext, List.append_assoc]
    rfl

theorem foldl_touch_owner (visitor : σ → Reference → σ × Nat) (q : σ × (RootOwner → List Reference)) (o : RootOwner) :
    ((List.range (q.2 o).length).map (RootPlace.mk o)).foldl (touch visitor) q = visitOwner visitor q o := by
  have h := foldl_touch_rest visitor o (q.2 o) [] q.1 q.2 rfl
  simp only [List.length_nil, Nat.zero_add, List.nil_append] at h
  exact h

theorem foldl_touch_places (visitor : σ → Reference → σ × Nat) : ∀ (os : List RootOwner)
    (q : σ × (RootOwner → List Reference)), (places q.2 os).foldl (touch visitor) q = os.foldl (visitOwner visitor) q
  | [], _ => rfl
  | o :: os, q => by
    have hsplit : places q.2 (o :: os) = (List.range (q.2 o).length).map (RootPlace.mk o) ++ places q.2 os :=
      List.flatMap_cons ..
    have hlength (o' : RootOwner) : ((visitOwner visitor q o).2 o').length = (q.2 o').length := by
      rw [← foldl_touch_owner, length_foldl]
    rw [hsplit, List.foldl_append, foldl_touch_owner, List.foldl_cons, ← places_congr hlength os,
      foldl_touch_places visitor os]

end Roots
end MarkSweep
