import MarkSweep.Marking
import MarkSweep.Proofs.Bitmap.Update
import MarkSweep.Proofs.Run
import Mathlib.Data.List.Nodup
/-!
# Marking finds exactly the objects that references lead to

The search pushes an object when it marks it, so that the objects pushed so far are what it has added to the bitmap
(`Marker.Tracks`).  An object that has left the stack has all its targets marked (`Marker.Scanned`); when the stack is
empty, the marked objects are closed under references.  Objects that were marked before the search are not passed
(`Found`); from an empty bitmap this is plain reachability (`found_iff_reachable`).
-/
namespace MarkSweep

/-- The objects that references lead to from `targets` without touching an object that is marked in `b`. -/
inductive Found (b : Bitmap) (m : Memory) (e : NarrowEncoding) (targets : List Address) : Address → Prop
  | root {x} : x ∈ targets → x ≠ 0 → b.isMarked x = false → Found b m e targets x
  | step {x y} : Found b m e targets x → PointsTo m e x y → b.isMarked y = false → Found b m e targets y

theorem found_iff_reachable {b : Bitmap} {m : Memory} {e : NarrowEncoding} {targets : List Address}
    (h : ∀ a, b.isMarked a = false) (x : Address) : Found b m e targets x ↔ Reachable m e targets x := by
  constructor
  · intro hx
    induction hx with
    | root hmem hne _ => exact .root hmem hne
    | step _ hp _ ih => exact .step ih hp
  · intro hx
    induction hx with
    | root hmem hne => exact .root hmem hne (h _)
    | step _ hp ih => exact .step ih hp (h _)

namespace Bitmap

/-- The address is the start of a granule that has a bit. -/
def Holds (b : Bitmap) (a : Address) : Prop :=
  0 < b.granuleBytes ∧ ∃ k, k < b.covered.byteSize / b.granuleBytes ∧ a = b.addressOf k

theorem Holds.bitOf_lt {b : Bitmap} {a : Address} (h : b.Holds a) : b.bitOf a < b.covered.byteSize / b.granuleBytes := by
  obtain ⟨hg, k, hk, rfl⟩ := h
  rw [bitOf, addressOf, Nat.add_sub_cancel_left, Nat.mul_div_cancel _ hg]
  exact hk

theorem Holds.contains {b : Bitmap} {a : Address} (h : b.Holds a) : b.covered.contains a = true := by
  obtain ⟨hg, k, hk, rfl⟩ := h
  have hend : (k + 1) * b.granuleBytes ≤ b.covered.byteSize := (Nat.le_div_iff_mul_le hg).1 hk
  rw [Nat.succ_mul, Region.byteSize] at hend
  refine Region.contains_iff.2 ⟨Nat.le_add_right _ _, ?_⟩
  have hlt : k * b.granuleBytes < b.covered.stop - b.covered.start :=
    Nat.lt_of_lt_of_le (Nat.lt_add_of_pos_right hg) hend
  rw [addressOf, Nat.add_comm]
  exact Nat.add_lt_of_lt_sub hlt

theorem Holds.eq_of_bitOf {b : Bitmap} {a c : Address} (ha : b.Holds a) (hc : b.Holds c) (h : b.bitOf a = b.bitOf c) :
    a = c := by
  obtain ⟨hg, k, -, rfl⟩ := ha
  obtain ⟨-, l, -, rfl⟩ := hc
  rw [bitOf, bitOf, addressOf, addressOf, Nat.add_sub_cancel_left, Nat.add_sub_cancel_left, Nat.mul_div_cancel _ hg,
    Nat.mul_div_cancel _ hg] at h
  rw [h]

end Bitmap

namespace Marker

/-- A search that began with `b` can come to a state by pushing just the given objects, the last one first.  It pushes what
is not marked and takes off the top of the stack. -/
inductive Pushes (b : Bitmap) : List Address → Marker → Prop
  | start : Pushes b [] (Marker.start b)
  | push {pushed : List Address} {k : Marker} {a : Address} (before : Pushes b pushed k)
      (fresh : k.bitmap.isMarked a = false) : Pushes b (a :: pushed) (k.push a)
  | pop {pushed : List Address} {k : Marker} (before : Pushes b pushed k) : Pushes b pushed k.pop?.2

section Search

variable {b : Bitmap} {m : Memory} {e : NarrowEncoding} {targets : List Address}

/-- The search that began with `b` has pushed exactly the objects `pushed`, each of them once. -/
structure Tracks (b : Bitmap) (m : Memory) (e : NarrowEncoding) (targets : List Address) (k : Marker)
    (pushed : List Address) : Prop where
  frame : b.SameFrame k.bitmap
  history : Pushes b pushed k
  bits : ∀ i, k.bitmap.testBit i = true ↔ b.testBit i = true ∨ ∃ x ∈ pushed, b.bitOf x = i
  nodup : pushed.Nodup
  found : ∀ x ∈ pushed, b.Holds x ∧ Found b m e targets x
  stack : k.stack ⊆ pushed
  marked : k.stats.markedObjects = pushed.length
  deepest : k.depth = k.stack.length ∧ k.depth ≤ pushed.length ∧ k.stats.maxStackDepth ≤ pushed.length

/-- Every target of the object is marked. -/
def Scanned (m : Memory) (e : NarrowEncoding) (k : Marker) (x : Address) : Prop :=
  ∀ y, PointsTo m e x y → k.bitmap.isMarked y = true

/-- A later state of the search: both the stack and what was pushed grew by `new`. -/
def Grew (k k' : Marker) (pushed pushed' : List Address) : Prop :=
  ∃ new, k'.stack = new ++ k.stack ∧ pushed' = new ++ pushed

theorem Grew.refl (k : Marker) (pushed : List Address) : Grew k k pushed pushed := ⟨[], rfl, rfl⟩

theorem Grew.trans {k k' k'' : Marker} {p p' p'' : List Address} (h : Grew k k' p p') (h' : Grew k' k'' p' p'') :
    Grew k k'' p p'' := by
  obtain ⟨new, hs, rfl⟩ := h
  obtain ⟨new', hs', rfl⟩ := h'
  exact ⟨new' ++ new, by rw [hs', hs, List.append_assoc], by rw [List.append_assoc]⟩

theorem Tracks.isMarked {k : Marker} {pushed : List Address} (h : Tracks b m e targets k pushed) (a : Address) :
    k.bitmap.isMarked a = true ↔ b.isMarked a = true ∨ ∃ x ∈ pushed, b.bitOf x = b.bitOf a := by
  rw [Bitmap.isMarked, h.frame.bitOf, h.bits, Bitmap.isMarked]

theorem Tracks.isMarked_mono {k k' : Marker} {p p' : List Address} (h : Tracks b m e targets k p)
    (h' : Tracks b m e targets k' p') (hg : Grew k k' p p') {a : Address} (ha : k.bitmap.isMarked a = true) :
    k'.bitmap.isMarked a = true := by
  obtain ⟨new, -, rfl⟩ := hg
  rw [h'.isMarked]
  rcases (h.isMarked a).1 ha with hb | ⟨x, hx, hbit⟩
  · exact .inl hb
  · exact .inr ⟨x, List.mem_append_right _ hx, hbit⟩

/-- A target that the search may follow: null, or a granule of the region, found unless it was marked before. -/
def Admits (b : Bitmap) (m : Memory) (e : NarrowEncoding) (targets : List Address) (a : Address) : Prop :=
  a = 0 ∨ (b.Holds a ∧ (b.isMarked a = false → Found b m e targets a))

/-- **Discovering an object marks it**, and pushes it unless it was marked. -/
theorem discover_spec {k : Marker} {pushed : List Address} (h : Tracks b m e targets k pushed) {a : Address}
    (ha : Admits b m e targets a) : ∃ k' pushed', (discover a).run k = .ok () k' ∧ Tracks b m e targets k' pushed' ∧
      Grew k k' pushed pushed' ∧ (a ≠ 0 → k'.bitmap.isMarked a = true) := by
  unfold discover
  rcases ha with rfl | ⟨hhold, hfound⟩
  · exact ⟨k, pushed, by simp, h, .refl k pushed, fun hne => absurd rfl hne⟩
  by_cases hne : a = 0
  · subst hne
    exact ⟨k, pushed, by simp, h, .refl k pushed, fun hne => absurd rfl hne⟩
  have hin : k.bitmap.covered.contains a = true := by
    rw [h.frame.1]
    exact hhold.contains
  cases hm : k.bitmap.isMarked a with
  | true => exact ⟨k, pushed, by simp [hne, hin, hm], h, .refl k pushed, fun _ => hm⟩
  | false =>
    have hnew : ¬(b.isMarked a = true ∨ ∃ x ∈ pushed, b.bitOf x = b.bitOf a) := by
      intro hc
      rw [← h.isMarked, hm] at hc
      cases hc
    have hnot : a ∉ pushed := fun hmem => hnew (.inr ⟨a, hmem, rfl⟩)
    have hb : b.isMarked a = false := Bool.eq_false_iff.2 fun hc => hnew (.inl hc)
    have hbit (i : Nat) : (k.bitmap.mark a).testBit i = true ↔
        b.testBit i = true ∨ ∃ x ∈ a :: pushed, b.bitOf x = i := by
      rw [Bitmap.testBit_mark, Bool.or_eq_true, decide_eq_true_eq, h.bits, h.frame.bitOf]
      simp only [List.mem_cons, exists_eq_or_imp]
      exact or_left_comm
    refine ⟨k.push a, a :: pushed, by simp [hne, hin, hm], ?_, ⟨[a], rfl, rfl⟩, ?_⟩
    · refine ⟨h.frame.trans (Bitmap.sameFrame_mark _ _), h.history.push hm, hbit, List.nodup_cons.2 ⟨hnot, h.nodup⟩, ?_, ?_, ?_, ?_⟩
      · intro x hx
        rcases List.mem_cons.1 hx with rfl | hx
        · exact ⟨hhold, hfound hb⟩
        · exact h.found x hx
      · exact List.cons_subset_cons a h.stack
      · simp [push, h.marked]
      · obtain ⟨h1, h2, h3⟩ := h.deepest
        simp only [push, List.length_cons]
        omega
    · intro _
      have hself : (k.push a).bitmap.bitOf a = b.bitOf a := (h.frame.trans (Bitmap.sameFrame_mark _ _)).bitOf a
      rw [Bitmap.isMarked, hself]
      exact (hbit _).2 (.inr ⟨a, by simp, rfl⟩)

theorem discoverAll_spec {α : Type} (load : α → Except Fault Address) : ∀ (l : List α) {k : Marker}
    {pushed : List Address}, Tracks b m e targets k pushed →
      (∀ x ∈ l, ∃ a, load x = .ok a ∧ Admits b m e targets a) →
      ∃ k' pushed', (l.forM fun x => (do discover (← load x) : MarkM Unit)).run k = .ok () k' ∧
        Tracks b m e targets k' pushed' ∧ Grew k k' pushed pushed' ∧
        ∀ x ∈ l, ∀ a, load x = .ok a → a ≠ 0 → k'.bitmap.isMarked a = true
  | [], k, pushed, h, _ => ⟨k, pushed, rfl, h, .refl k pushed, fun _ hx => by cases hx⟩
  | x :: l, k, pushed, h, hl => by
    obtain ⟨a, hload, ha⟩ := hl x (by simp)
    obtain ⟨k1, p1, hrun1, h1, hg1, hm1⟩ := discover_spec h ha
    obtain ⟨k2, p2, hrun2, h2, hg2, hm2⟩ := discoverAll_spec load l h1 fun y hy => hl y (by simp [hy])
    refine ⟨k2, p2, ?_, h2, hg1.trans hg2, ?_⟩
    · have hhead : (do discover (← load x) : MarkM Unit).run k = .ok () k1 := by
        rw [hload, run_bind_of_ok (run_lift_ok a k), hrun1]
      exact (run_bind_of_ok hhead).trans hrun2
    · intro y hy c hc hne
      rcases List.mem_cons.1 hy with rfl | hy
      · rw [hload] at hc
        cases hc
        exact h1.isMarked_mono h2 hg2 (hm1 hne)
      · exact hm2 y hy c hc hne

/-- Every object that was found can be traced. -/
def Traceable (b : Bitmap) (m : Memory) (e : NarrowEncoding) (targets : List Address) : Prop :=
  ∀ x, Found b m e targets x → ∀ s ∈ Object.slots m x, ∃ a, s.load m e = .ok a ∧ (a = 0 ∨ b.Holds a)

theorem trace_spec (htr : Traceable b m e targets) {k : Marker} {pushed : List Address}
    (h : Tracks b m e targets k pushed) {x : Address} (hx : Found b m e targets x) :
    ∃ k' pushed', (trace m e x).run k = .ok () k' ∧ Tracks b m e targets k' pushed' ∧ Grew k k' pushed pushed' ∧
      Scanned m e k' x := by
  obtain ⟨k', p', hrun, h', hg, hm⟩ := discoverAll_spec (fun s : Slot => s.load m e) (Object.slots m x) h fun s hs => by
    obtain ⟨a, hload, ha⟩ := htr x hx s hs
    refine ⟨a, hload, ?_⟩
    by_cases hne : a = 0
    · exact .inl hne
    · exact .inr ⟨ha.resolve_left hne, fun hb => .step hx ⟨hne, s, hs, hload⟩ hb⟩
  exact ⟨k', p', hrun, h', hg, fun y ⟨hne, s, hs, hload⟩ => hm s hs y hload hne⟩

theorem Tracks.length_le {k : Marker} {pushed : List Address} (h : Tracks b m e targets k pushed) :
    pushed.length ≤ b.covered.byteSize / b.granuleBytes := by
  have hinj : (pushed.map b.bitOf).Nodup := by
    apply h.nodup.map_on
    intro x hx y hy hbit
    exact (h.found x hx).1.eq_of_bitOf (h.found y hy).1 hbit
  have hsub : pushed.map b.bitOf ⊆ List.range (b.covered.byteSize / b.granuleBytes) := by
    intro i hi
    obtain ⟨x, hx, rfl⟩ := List.mem_map.1 hi
    exact List.mem_range.2 (h.found x hx).1.bitOf_lt
  simpa using hinj.length_le_of_subset hsub

/-- Where a search came to an empty stack, it would have done no more with more fuel. -/
theorem drain_of_le : ∀ {n n' : Nat} {k k' : Marker}, (drain m e n).run k = .ok () k' → k'.stack = [] → n ≤ n' →
    (drain m e n').run k = .ok () k'
  | 0, 0, k, k', hrun, _, _ => hrun
  | 0, n' + 1, k, k', hrun, hempty, _ => by
    cases hrun
    simp [drain, pop?, hempty]
  | n + 1, n' + 1, k, k', hrun, hempty, hle => by
    rw [drain, run_bind_of_ok (EStateM.run_modifyGet _ _)] at hrun ⊢
    cases hpop : k.pop?.1 with
    | none => rwa [hpop] at hrun
    | some x =>
      rw [hpop] at hrun
      simp only at hrun ⊢
      obtain ⟨_, k1, htrace, hrest⟩ := run_bind_eq_ok hrun
      rw [run_bind_of_ok htrace]
      exact drain_of_le hrest hempty (Nat.le_of_succ_le_succ hle)

/-- **The search ends with an empty stack and with every object scanned.**  What it still has to push and what is on the
stack bound the objects it looks at. -/
theorem drain_spec (htr : Traceable b m e targets) : ∀ (n : Nat) {k : Marker} {pushed : List Address},
    Tracks b m e targets k pushed → (∀ x ∈ pushed, x ∉ k.stack → Scanned m e k x) →
      b.covered.byteSize / b.granuleBytes - pushed.length + k.stack.length ≤ n →
      ∃ k' pushed', (drain m e n).run k = .ok () k' ∧ Tracks b m e targets k' pushed' ∧ pushed ⊆ pushed' ∧
        k'.stack = [] ∧ ∀ x ∈ pushed', Scanned m e k' x
  | n, k, pushed, h, hdone, hn => by
    cases hs : k.stack with
    | nil =>
      have hall : ∀ x ∈ pushed, Scanned m e k x := fun x hx => hdone x hx (by rw [hs]; exact List.not_mem_nil)
      refine ⟨k, pushed, ?_, h, fun _ hx => hx, hs, hall⟩
      cases n with
      | zero => rfl
      | succ n => simp [drain, pop?, hs]
    | cons x rest =>
      rw [hs, List.length_cons] at hn
      cases n with
      | zero => omega
      | succ n =>
        have hpop : k.pop? = (some x, { k with stack := rest, depth := k.depth - 1 }) := by simp only [pop?, hs]
        have hx : x ∈ pushed := h.stack (by rw [hs]; simp)
        have h1 : Tracks b m e targets { k with stack := rest, depth := k.depth - 1 } pushed := by
          obtain ⟨d1, d2, d3⟩ := h.deepest
          refine ⟨h.frame, ?_, h.bits, h.nodup, h.found, fun y hy => h.stack (by rw [hs]; simp [hy]), h.marked, ?_, ?_, d3⟩
          · have hhistory := h.history.pop
            rwa [hpop] at hhistory
          · rw [hs, List.length_cons] at d1
            simp only
            omega
          · simp only
            omega
        obtain ⟨k2, p2, hrun2, h2, hg2, hscan⟩ := trace_spec htr h1 (h.found x hx).2
        have hmono {a : Address} (ha : k.bitmap.isMarked a = true) : k2.bitmap.isMarked a = true :=
          h1.isMarked_mono h2 hg2 ha
        obtain ⟨new, hstack, rfl⟩ := hg2
        have hlen := h2.length_le
        -- what is off the stack now was scanned before, or is the object that was popped
        have hdone2 : ∀ y ∈ new ++ pushed, y ∉ k2.stack → Scanned m e k2 y := by
          intro y hy hnot
          rw [hstack, List.mem_append, not_or] at hnot
          by_cases hyx : y = x
          · exact hyx ▸ hscan
          · have hold : y ∈ pushed := (List.mem_append.1 hy).resolve_left hnot.1
            have hscanned := hdone y hold (by rw [hs, List.mem_cons, not_or]; exact ⟨hyx, hnot.2⟩)
            exact fun z hz => hmono (hscanned z hz)
        obtain ⟨k', p', hrun', h', hsub, hempty, hall⟩ := drain_spec htr n h2 hdone2 (by
          simp only [hstack, List.length_append] at hlen ⊢
          omega)
        refine ⟨k', p', ?_, h', fun y hy => hsub (List.mem_append_right _ hy), hempty, hall⟩
        rw [drain, run_bind_of_ok (EStateM.run_modifyGet _ _), hpop]
        simp only
        rw [run_bind_of_ok hrun2, hrun']

/-- **The search pushes exactly the found objects and empties its stack**, whatever fuel it has beyond one object for each
bit. -/
theorem search_spec {roots : List Reference} (hsize : b.covered.byteSize / b.granuleBytes ≤ b.mapWords * mapWordBits)
    (hroots : ∀ r ∈ roots, ∃ a, r.load e = .ok a ∧ (a = 0 ∨ a ∈ targets ∧ b.Holds a))
    (htargets : ∀ a ∈ targets, a ≠ 0 → ∃ r ∈ roots, r.load e = .ok a) (htr : Traceable b m e targets) :
    ∃ k pushed, (∀ n, b.mapWords * mapWordBits ≤ n → (search m e roots n).run (start b) = .ok () k) ∧ k.stack = [] ∧
      Tracks b m e targets k pushed ∧ ∀ x, x ∈ pushed ↔ Found b m e targets x := by
  have h0 : Tracks b m e targets (start b) [] :=
    ⟨⟨rfl, rfl, rfl, rfl⟩, .start, fun i => by simp [start], .nil, fun _ hx => (by cases hx), List.nil_subset _, rfl, rfl,
      Nat.le_refl _, Nat.le_refl _⟩
  obtain ⟨k1, p1, hrun1, h1, ⟨new, hstack, hp1⟩, hm1⟩ :=
    discoverAll_spec (fun r : Reference => r.load e) roots h0 fun r hr => by
      obtain ⟨a, hload, ha⟩ := hroots r hr
      refine ⟨a, hload, ?_⟩
      by_cases hne : a = 0
      · exact .inl hne
      · obtain ⟨hmem, hhold⟩ := ha.resolve_left hne
        exact .inr ⟨hhold, fun hb => .root hmem hne hb⟩
  simp only [start, List.append_nil] at hstack hp1
  subst hp1
  have hlen := h1.length_le
  obtain ⟨k2, p2, hrun2, h2, hsub, hempty, hscan⟩ := drain_spec htr (b.mapWords * mapWordBits) h1
    (fun x hx hnot => absurd (hstack ▸ hx) hnot) (by rw [hstack]; omega)
  refine ⟨k2, p2, fun n hn => ?_, hempty, h2, fun x => ⟨fun hx => (h2.found x hx).2, fun hx => ?_⟩⟩
  · rw [search, run_bind_of_ok hrun1]
    exact drain_of_le hrun2 hempty hn
  -- what is marked and was not marked before was pushed
  have hpushed {a : Address} (hhold : b.Holds a) (hb : b.isMarked a = false) (ha : k2.bitmap.isMarked a = true) :
      a ∈ p2 := by
    rcases (h2.isMarked a).1 ha with hc | ⟨y, hy, hbit⟩
    · rw [hb] at hc; cases hc
    · exact (h2.found y hy).1.eq_of_bitOf hhold hbit ▸ hy
  induction hx with
  | root hmem hne hb =>
    obtain ⟨r, hr, hload⟩ := htargets _ hmem hne
    obtain ⟨a, hload', ha⟩ := hroots r hr
    rw [hload] at hload'
    cases hload'
    have hmark := hm1 r hr _ hload hne
    apply hpushed (ha.resolve_left hne).2 hb
    rw [h2.isMarked]
    rcases (h1.isMarked _).1 hmark with hc | ⟨y, hy, hbit⟩
    · exact .inl hc
    · exact .inr ⟨y, hsub hy, hbit⟩
  | step hx hp hb ih =>
    obtain ⟨hne, s, hs, hload⟩ := id hp
    obtain ⟨a, hload', ha⟩ := htr _ hx s hs
    rw [hload] at hload'
    cases hload'
    exact hpushed (ha.resolve_left hne) hb (hscan _ ih _ hp)

end Search

theorem run_eq_ok {b : Bitmap} {m : Memory} {e : NarrowEncoding} {roots : List Reference} {k : Marker}
    (h : (search m e roots (b.mapWords * mapWordBits)).run (start b) = .ok () k) :
    run b m e roots = (.ok k.stats, k.bitmap) := by
  unfold run
  rw [h]

/-- **Marking adds exactly the found objects to the bitmap**, counts each of them once, and never stops early. -/
theorem run_spec {b : Bitmap} {m : Memory} {e : NarrowEncoding} {roots : List Reference} {targets : List Address}
    (hsize : b.covered.byteSize / b.granuleBytes ≤ b.mapWords * mapWordBits)
    (hroots : ∀ r ∈ roots, ∃ a, r.load e = .ok a ∧ (a = 0 ∨ a ∈ targets ∧ b.Holds a))
    (htargets : ∀ a ∈ targets, a ≠ 0 → ∃ r ∈ roots, r.load e = .ok a) (htr : Traceable b m e targets) :
    ∃ (stats : MarkStats) (b' : Bitmap) (pushed : List Address), run b m e roots = (.ok stats, b') ∧ b.SameFrame b' ∧
      (∀ i, b'.testBit i = true ↔ b.testBit i = true ∨ ∃ x ∈ pushed, b.bitOf x = i) ∧
      pushed.Nodup ∧ (∀ x, x ∈ pushed ↔ Found b m e targets x) ∧ (∀ x ∈ pushed, b.Holds x) ∧
      stats.markedObjects = pushed.length ∧ stats.maxStackDepth ≤ pushed.length := by
  obtain ⟨k, pushed, hrun, -, h, hfound⟩ := search_spec hsize hroots htargets htr
  exact ⟨k.stats, k.bitmap, pushed, run_eq_ok (hrun _ (Nat.le_refl _)), h.frame, h.bits, h.nodup, hfound,
    fun x hx => (h.found x hx).1, h.marked, h.deepest.2.2⟩

end Marker

end MarkSweep
