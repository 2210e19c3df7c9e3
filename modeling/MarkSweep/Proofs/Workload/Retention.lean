import MarkSweep.Proofs.Marking.Exact
import MarkSweep.Proofs.Workload.Crew
import Mathlib.Data.Set.Card
/-!
# Retention — how many objects a window of shallow objects keeps

An object with an even number is a leaf, and one with an odd number refers to the leaf before it.  So what a window of such
objects and one leaf behind it lead to has a bound that does not depend on how many objects were made.
-/
namespace MarkSweep

section

variable {m m' : Memory} {e e' : NarrowEncoding} {x : Address}

/-- An object that refers to no other. -/
def Leaf (m : Memory) (e : NarrowEncoding) (x : Address) : Prop := ∀ y, ¬PointsTo m e x y

/-- An object that refers to one leaf at most. -/
structure Shallow (m : Memory) (e : NarrowEncoding) (x : Address) : Prop where
  unique : ∀ y z, PointsTo m e x y → PointsTo m e x z → y = z
  leaf : ∀ y, PointsTo m e x y → Leaf m e y

theorem Leaf.shallow (h : Leaf m e x) : Shallow m e x := ⟨fun y _ hy => absurd hy (h y), fun y hy => absurd hy (h y)⟩

theorem Leaf.congr (h : Leaf m e x) (hx : ∀ y, PointsTo m' e' x y ↔ PointsTo m e x y) : Leaf m' e' x :=
  fun y hy => h y ((hx y).1 hy)

theorem Shallow.congr (h : Shallow m e x) (hx : ∀ y, PointsTo m' e' x y ↔ PointsTo m e x y)
    (htarget : ∀ y, PointsTo m e x y → ∀ z, PointsTo m' e' y z ↔ PointsTo m e y z) : Shallow m' e' x :=
  ⟨fun y z hy hz => h.unique y z ((hx y).1 hy) ((hx z).1 hz),
    fun y hy => (h.leaf y ((hx y).1 hy)).congr (htarget y ((hx y).1 hy))⟩

/-- Shallow objects have no more targets than there are of them. -/
theorem exists_targets : ∀ {as : List Address}, (∀ x ∈ as, x = 0 ∨ Shallow m e x) →
    ∃ ts : List Address, ts.length = as.length ∧ ∀ x ∈ as, x ≠ 0 → ∀ y, PointsTo m e x y → y ∈ ts
  | [], _ => ⟨[], rfl, fun _ hx => by cases hx⟩
  | a :: as, h => by
    obtain ⟨ts, hlen, hts⟩ := exists_targets fun x hx => h x (List.mem_cons_of_mem a hx)
    obtain ⟨t, ht⟩ : ∃ t, a ≠ 0 → ∀ y, PointsTo m e a y → y = t := by
      rcases h a (by simp) with rfl | ha
      · exact ⟨0, fun hne => absurd rfl hne⟩
      · by_cases hex : ∃ t, PointsTo m e a t
        · exact ⟨hex.choose, fun _ y hy => ha.unique y _ hy hex.choose_spec⟩
        · exact ⟨0, fun _ y hy => absurd ⟨y, hy⟩ hex⟩
    refine ⟨t :: ts, by rw [List.length_cons, List.length_cons, hlen], ?_⟩
    intro x hx hne y hy
    rcases List.mem_cons.1 hx with rfl | hx
    · exact ht hne y hy ▸ List.mem_cons_self
    · exact List.mem_cons_of_mem t (hts x hx hne y hy)

/-- **A window of shallow objects and one leaf reach few objects**: themselves, and one more for each place of the window. -/
theorem encard_reachable_le {window : List Address} {last : Address} (hwindow : ∀ x ∈ window, x = 0 ∨ Shallow m e x)
    (hlast : last = 0 ∨ Leaf m e last) : {x | Reachable m e (window ++ [last]) x}.encard ≤ 2 * window.length + 1 := by
  obtain ⟨ts, hlen, hts⟩ := exists_targets hwindow
  have hreach : ∀ x, Reachable m e (window ++ [last]) x →
      (x ∈ window ∧ x ≠ 0) ∨ Leaf m e x ∧ (x ∈ ts ∨ x = last) := by
    intro x hx
    induction hx with
    | root hmem hne =>
      rcases List.mem_append.1 hmem with hmem | hmem
      · exact .inl ⟨hmem, hne⟩
      · obtain rfl := List.mem_singleton.1 hmem
        exact .inr ⟨hlast.resolve_left hne, .inr rfl⟩
    | step _ hp ih =>
      rcases ih with ⟨hmem, hne⟩ | ⟨hleaf, -⟩
      · exact .inr ⟨((hwindow _ hmem).resolve_left hne).leaf _ hp, .inl (hts _ hmem hne _ hp)⟩
      · exact absurd hp (hleaf _)
  have hsub : {x | Reachable m e (window ++ [last]) x} ⊆ ↑(window ++ ts ++ [last]).toFinset := by
    intro x hx
    rw [List.coe_toFinset]
    show x ∈ window ++ ts ++ [last]
    simp only [List.mem_append, List.mem_singleton]
    rcases hreach x hx with ⟨hmem, -⟩ | ⟨-, hmem | rfl⟩
    · exact .inl (.inl hmem)
    · exact .inl (.inr hmem)
    · exact .inr rfl
  refine (Set.encard_le_encard hsub).trans ?_
  rw [Set.encard_coe_eq_coe_finsetCard]
  have hcard := List.toFinset_card_le (window ++ ts ++ [last])
  rw [List.length_append, List.length_append, hlen, List.length_singleton, ← Nat.two_mul] at hcard
  exact_mod_cast hcard

end

/-! ## The slots of a worker -/

namespace Worker

variable {o : Workload} {w : Worker} {m m' : Memory} {e e' : NarrowEncoding} {s : RootSlots} {obj : Address}

/-- What the slots of a worker that is at work hold: behind the window is a leaf or, before an even object, null. -/
structure Holds (w : Worker) (m : Memory) (e : NarrowEncoding) (s : RootSlots) : Prop where
  size : s.wide.size = windowSize + 1
  narrow : s.narrow = #[]
  last : previous s = 0 ∨ Leaf m e (previous s)
  even : w.made % 2 = 0 → previous s = 0
  cursor : w.cursor < windowSize

theorem holds_rootSlots (hcursor : w.cursor = 0) : w.Holds m e rootSlots := by
  have hlast : previous rootSlots = 0 := by
    unfold previous rootSlots
    rw [Array.getElem?_replicate, if_pos (Nat.lt_succ_self _)]
    rfl
  exact ⟨Array.size_replicate, rfl, .inl hlast, fun _ => hlast, by rw [hcursor]; decide⟩

theorem previous_remember (hsize : s.wide.size = windowSize + 1) (keepEvery i : Nat) {cursor : Nat}
    (hcursor : cursor < windowSize) : previous (remember keepEvery i cursor obj s) = if i % 2 = 0 then obj else 0 := by
  have hset (x : Address) : (s.wide.setIfInBounds windowSize x)[windowSize]? = some x := by
    rw [Array.getElem?_setIfInBounds_self_of_lt (by omega)]
  unfold previous remember
  by_cases hkeep : keepEvery ≠ 0 ∧ i % keepEvery = 0
  · simp only [if_pos hkeep]
    rw [Array.getElem?_setIfInBounds_ne (Nat.ne_of_lt hcursor), hset]
    rfl
  · simp only [if_neg hkeep]
    rw [hset]
    rfl

theorem mem_remember {keepEvery i cursor : Nat} {a : Address} (ha : a ∈ (remember keepEvery i cursor obj s).wide) :
    a ∈ s.wide ∨ a = obj ∨ a = 0 := by
  have hset (ha : a ∈ s.wide.setIfInBounds windowSize (if i % 2 = 0 then obj else 0)) : a ∈ s.wide ∨ a = obj ∨ a = 0 := by
    rcases Array.mem_or_eq_of_mem_setIfInBounds ha with ha | rfl
    · exact .inl ha
    · split
      · exact .inr (.inl rfl)
      · exact .inr (.inr rfl)
  unfold remember at ha
  by_cases hkeep : keepEvery ≠ 0 ∧ i % keepEvery = 0
  · simp only [if_pos hkeep] at ha
    rcases Array.mem_or_eq_of_mem_setIfInBounds ha with ha | rfl
    · exact hset ha
    · exact .inr (.inl rfl)
  · simp only [if_neg hkeep] at ha
    exact hset ha

theorem Holds.mem_references_remember (h : w.Holds m e s) {keepEvery i cursor : Nat} {r : Reference}
    (hr : r ∈ (Worker.remember keepEvery i cursor obj s).references) :
    ∃ x, r = .wide x ∧ (x ∈ s.wide ∨ x = obj ∨ x = 0) := by
  have hnarrow : (Worker.remember keepEvery i cursor obj s).narrow = #[] := h.narrow
  unfold RootSlots.references at hr
  rw [hnarrow, List.map_nil, List.append_nil, List.mem_map] at hr
  obtain ⟨x, hx, rfl⟩ := hr
  exact ⟨x, rfl, mem_remember (Array.mem_toList_iff.1 hx)⟩

/-- **A worker remembers its new object**, a leaf if its number is even. -/
theorem Holds.remember (h : w.Holds m e s) (hobj : w.made % 2 = 0 → Leaf m' e' obj) :
    (w.grown o).Holds m' e' (remember o.keepEvery w.made w.cursor obj s) := by
  have hprevious : previous (Worker.remember o.keepEvery w.made w.cursor obj s) = if w.made % 2 = 0 then obj else 0 :=
    previous_remember h.size o.keepEvery w.made h.cursor
  refine ⟨?_, h.narrow, ?_, ?_, ?_⟩
  · unfold Worker.remember
    simp only
    split <;> simp only [Array.size_setIfInBounds, h.size]
  · rw [hprevious]
    by_cases heven : w.made % 2 = 0
    · rw [if_pos heven]
      exact .inr (hobj heven)
    · rw [if_neg heven]
      exact .inl rfl
  · intro heven
    have hodd : ¬w.made % 2 = 0 := by
      unfold grown at heven
      simp only at heven
      omega
    rw [hprevious, if_neg hodd]
  · unfold grown
    simp only
    split
    · exact Nat.mod_lt _ (by decide)
    · exact h.cursor

theorem Holds.congr (h : w.Holds m e s) (hlast : Leaf m e (previous s) → previous s = 0 ∨ Leaf m' e' (previous s)) :
    w.Holds m' e' s :=
  ⟨h.size, h.narrow, h.last.elim .inl hlast, h.even, h.cursor⟩

theorem Holds.previous_mem (h : w.Holds m e s) : previous s ∈ s.wide := by
  have hlt : windowSize < s.wide.size := by rw [h.size]; exact Nat.lt_succ_self _
  unfold previous
  rw [Array.getElem?_eq_getElem hlt]
  exact Array.getElem_mem hlt

/-- **What a worker holds reaches few objects**, however many it has made. -/
theorem Holds.encard_le (h : w.Holds m e s) (hwide : ∀ a ∈ s.wide, a = 0 ∨ Shallow m e a) :
    {x | Reachable m e (Reference.targets e s.references) x}.encard ≤ 2 * windowSize + 1 := by
  have hlen : s.wide.toList.length = windowSize + 1 := h.size
  have hlt : windowSize < s.wide.toList.length := by omega
  have hsplit : s.wide.toList = s.wide.toList.take windowSize ++ [previous s] := by
    have htake := List.take_append_getElem hlt
    rw [List.take_of_length_le (Nat.le_of_eq hlen)] at htake
    rw [previous, ← Array.getElem?_toList, List.getElem?_eq_getElem hlt]
    exact htake.symm
  have htargets : Reference.targets e s.references = s.wide.toList.take windowSize ++ [previous s] := by
    rw [← hsplit]
    unfold Reference.targets RootSlots.references
    rw [h.narrow, List.map_nil, List.append_nil, List.filterMap_map]
    exact List.filterMap_some
  rw [htargets]
  have hwindow : ∀ x ∈ s.wide.toList.take windowSize, x = 0 ∨ Shallow m e x := fun x hx =>
    hwide x (Array.mem_toList_iff.1 (List.mem_of_mem_take hx))
  have hbound := encard_reachable_le hwindow h.last
  rwa [List.length_take, Nat.min_eq_left (Nat.le_of_lt hlt)] at hbound

end Worker
end MarkSweep
