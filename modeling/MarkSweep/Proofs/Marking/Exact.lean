import MarkSweep.Heap.Collection
import MarkSweep.Proofs.Marking
import MarkSweep.Proofs.Roots
/-!
# Marking is exact from any bitmap

Over objects that refer to nothing but each other a search ends, and it adds to the bitmap just the objects that a path
over unmarked objects leads to, whatever was marked before (`Marker.search_exact`).
-/
namespace MarkSweep

/-- The objects start granules that have a bit, and every reference of one is null or leads to one. -/
structure ObjectGraph (b : Bitmap) (m : Memory) (e : NarrowEncoding) (objects : Address → Prop) : Prop where
  holds : ∀ x, objects x → b.Holds x
  closed : ∀ x, objects x → ∀ s ∈ Object.slots m x, ∃ a, s.load m e = .ok a ∧ (a = 0 ∨ objects a)

namespace ObjectGraph

/-- Whether listed objects are a graph. -/
def check (b : Bitmap) (m : Memory) (e : NarrowEncoding) (objects : List Address) : Bool :=
  objects.all fun x =>
    decide (0 < b.granuleBytes ∧ b.bitOf x < b.covered.byteSize / b.granuleBytes ∧ x = b.addressOf (b.bitOf x)) &&
    (Object.slots m x).all fun s => match s.load m e with
      | .ok a => a == 0 || objects.contains a
      | .error _ => false

theorem of_check {b : Bitmap} {m : Memory} {e : NarrowEncoding} {objects : List Address}
    (h : check b m e objects = true) : ObjectGraph b m e (· ∈ objects) := by
  have hobject {x : Address} (hx : x ∈ objects) := Bool.and_eq_true_iff.1 (List.all_eq_true.1 h x hx)
  constructor
  case holds =>
    intro x hx
    obtain ⟨hpos, hbit, haddr⟩ := of_decide_eq_true (hobject hx).1
    exact ⟨hpos, _, hbit, haddr⟩
  case closed =>
    intro x hx s hs
    have hslot := List.all_eq_true.1 (hobject hx).2 s hs
    cases hload : s.load m e with
    | ok a => exact ⟨a, rfl, by simpa [hload] using hslot⟩
    | error f => simp [hload] at hslot

end ObjectGraph

/-- What the roots refer to. -/
def Reference.targets (e : NarrowEncoding) (roots : List Reference) : List Address :=
  roots.filterMap fun r => (r.load e).toOption

theorem Reference.mem_targets {e : NarrowEncoding} {roots : List Reference} {a : Address} :
    a ∈ targets e roots ↔ ∃ r ∈ roots, r.load e = .ok a := by
  rw [targets, List.mem_filterMap]
  refine exists_congr fun r => and_congr_right fun _ => ?_
  cases r.load e <;> simp [Except.toOption]

section Found

variable {b : Bitmap} {m : Memory} {e : NarrowEncoding} {targets targets' : List Address} {x : Address}

theorem Found.isMarked (h : Found b m e targets x) : b.isMarked x = false := by
  cases h with
  | root _ _ hb => exact hb
  | step _ _ hb => exact hb

theorem Found.mono (hsub : ∀ a ∈ targets, a ∈ targets') (h : Found b m e targets x) : Found b m e targets' x := by
  induction h with
  | root hmem hne hb => exact .root (hsub _ hmem) hne hb
  | step _ hp hb ih => exact .step ih hp hb

theorem ObjectGraph.of_found {objects : Address → Prop} (h : ObjectGraph b m e objects)
    (htargets : ∀ a ∈ targets, a = 0 ∨ objects a) (hx : Found b m e targets x) : objects x := by
  induction hx with
  | root hmem hne _ => exact (htargets _ hmem).resolve_left hne
  | step _ hp _ ih =>
    obtain ⟨hne, s, hs, hload⟩ := hp
    obtain ⟨a, hload', ha⟩ := h.closed _ ih s hs
    rw [hload] at hload'
    cases hload'
    exact ha.resolve_left hne

end Found

namespace Marker

/-- Goes on with a root slot, unless a fault stopped the search at a slot before. -/
def onSlot (e : NarrowEncoding) (r : EStateM.Result Fault Marker Unit) (x : Reference) : EStateM.Result Fault Marker Unit :=
  match r with
  | .ok () k => (do discover (← x.load e) : MarkM Unit).run k
  | .error f k => .error f k

theorem forM_eq_foldl (e : NarrowEncoding) : ∀ (roots : List Reference) {k k' : Marker},
    (roots.forM fun r => (do discover (← r.load e) : MarkM Unit)).run k = .ok () k' →
      roots.foldl (onSlot e) (.ok () k) = .ok () k'
  | [], _, _, h => h
  | r :: roots, k, k', h => by
    obtain ⟨_, k1, hhead, hrest⟩ := run_bind_eq_ok (show (_ >>= fun _ => roots.forM _ : MarkM Unit).run k = _ from h)
    rw [List.foldl_cons, onSlot, hhead]
    exact forM_eq_foldl e roots hrest

/-- **What a search from `roots` has done** to the bitmap `b` when it stands at `k`, after it has pushed `pushed`. -/
structure Exact (b : Bitmap) (m : Memory) (e : NarrowEncoding) (roots : List Reference) (k : Marker)
    (pushed : List Address) : Prop where
  run : run b m e roots = (.ok k.stats, k.bitmap)
  /-- Fuel does not end the search. -/
  ends : ∀ n, b.mapWords * mapWordBits ≤ n → (search m e roots n).run (start b) = .ok () k
  empty : k.stack = []
  frame : b.SameFrame k.bitmap
  history : Pushes b pushed k
  once : pushed.Nodup
  found : ∀ x, x ∈ pushed ↔ Found b m e (Reference.targets e roots) x
  fresh : ∀ x ∈ pushed, b.isMarked x = false ∧ k.bitmap.isMarked x = true
  bits : ∀ i, k.bitmap.testBit i = true ↔
    b.testBit i = true ∨ ∃ x, Found b m e (Reference.targets e roots) x ∧ b.bitOf x = i
  count : k.stats.markedObjects = pushed.length
  depth : k.stats.maxStackDepth ≤ k.stats.markedObjects

section Search

variable {b : Bitmap} {m : Memory} {e : NarrowEncoding} {objects : Address → Prop} {roots roots' : List Reference}

theorem exists_exact (hsize : b.covered.byteSize / b.granuleBytes ≤ b.mapWords * mapWordBits)
    (hgraph : ObjectGraph b m e objects) (hroots : ∀ r ∈ roots, ∃ a, r.load e = .ok a ∧ (a = 0 ∨ objects a)) :
    ∃ k pushed, Exact b m e roots k pushed := by
  have htargets : ∀ a ∈ Reference.targets e roots, a = 0 ∨ objects a := by
    intro a ha
    obtain ⟨r, hr, hload⟩ := Reference.mem_targets.1 ha
    obtain ⟨a', hload', ha'⟩ := hroots r hr
    rw [hload] at hload'
    cases hload'
    exact ha'
  have htraceable : Traceable b m e (Reference.targets e roots) := by
    intro x hx s hs
    obtain ⟨a, hload, ha⟩ := hgraph.closed x (hgraph.of_found htargets hx) s hs
    exact ⟨a, hload, ha.imp_right (hgraph.holds a)⟩
  obtain ⟨k, pushed, hrun, hempty, h, hfound⟩ := search_spec hsize
    (fun r hr => by
      obtain ⟨a, hload, ha⟩ := hroots r hr
      exact ⟨a, hload, ha.imp_right fun hobj => ⟨Reference.mem_targets.2 ⟨r, hr, hload⟩, hgraph.holds a hobj⟩⟩)
    (fun a ha _ => Reference.mem_targets.1 ha) htraceable
  refine ⟨k, pushed, ?_⟩
  constructor
  case run => exact run_eq_ok (hrun _ (Nat.le_refl _))
  case ends => exact hrun
  case empty => exact hempty
  case frame => exact h.frame
  case history => exact h.history
  case once => exact h.nodup
  case found => exact hfound
  case fresh => exact fun x hx => ⟨(h.found x hx).2.isMarked, (h.isMarked x).2 (.inr ⟨x, hx, rfl⟩)⟩
  case bits =>
    intro i
    rw [h.bits]
    exact or_congr_right (exists_congr fun x => and_congr_left fun _ => hfound x)
  case count => exact h.marked
  case depth => exact h.marked.symm ▸ h.deepest.2.2

theorem Exact.congr {k k' : Marker} {pushed pushed' : List Address} (h : Exact b m e roots k pushed)
    (h' : Exact b m e roots' k' pushed') (hsame : ∀ r, r ∈ roots' ↔ r ∈ roots) :
    (∀ i, k'.bitmap.testBit i = k.bitmap.testBit i) ∧ k'.stats.markedObjects = k.stats.markedObjects := by
  have htargets (a : Address) : a ∈ Reference.targets e roots' ↔ a ∈ Reference.targets e roots := by
    rw [Reference.mem_targets, Reference.mem_targets]
    exact exists_congr fun r => and_congr_left fun _ => hsame r
  have hfound (x : Address) : Found b m e (Reference.targets e roots') x ↔ Found b m e (Reference.targets e roots) x :=
    ⟨.mono fun a ha => (htargets a).1 ha, .mono fun a ha => (htargets a).2 ha⟩
  constructor
  · intro i
    rw [Bool.eq_iff_iff, h.bits, h'.bits]
    exact or_congr_right (exists_congr fun x => and_congr_left fun _ => hfound x)
  · rw [h.count, h'.count]
    refine ((List.perm_ext_iff_of_nodup h'.once h.once).2 fun x => ?_).length_eq
    rw [h.found, h'.found, hfound]

theorem Exact.markLive {k : Marker} {pushed : List Address} {h : Heap} {threadRoots : List Address}
    (hexact : Exact h.live h.memory h.encoding (h.roots.enumerate threadRoots) k pushed) :
    (Heap.markLive threadRoots).run h = .ok k.stats { h with phase := .marking, live := k.bitmap } := by
  unfold Heap.markLive
  rw [run_bind_of_ok (EStateM.run_get h), hexact.run]
  rfl

/-- The marking of registered roots is a visit that only reads the slots, and then the search from what it has pushed. -/
theorem Exact.visit {k : Marker} {pushed : List Address} {r : Roots} {threadRoots : List Address}
    (hexact : Exact b m e (r.enumerate threadRoots) k pushed) :
    ∃ k₁, r.visit (Roots.reading (onSlot e)) (.ok () (start b)) threadRoots = (.ok () k₁, r, threadRoots) ∧
      (drain m e (b.mapWords * mapWordBits)).run k₁ = .ok () k := by
  obtain ⟨_, k₁, hroots, hdrain⟩ := run_bind_eq_ok (hexact.ends _ (Nat.le_refl _))
  exact ⟨k₁, by rw [Roots.visit_read, forM_eq_foldl e _ hroots], hdrain⟩

/-- **Marking is exact from any bitmap.**  Over objects that refer to null or to each other, a search from any roots ends
with an empty stack.  It pushes each object once that a path over objects outside the bitmap leads to, and adds just
these to the bitmap; from an empty bitmap they are all reachable objects.  The order and the repetition of the roots do
not matter.  The same holds of the registered roots of a heap, whose words and root slots stay as they are. -/
theorem search_exact (hsize : b.covered.byteSize / b.granuleBytes ≤ b.mapWords * mapWordBits)
    (hgraph : ObjectGraph b m e objects) (hroots : ∀ r ∈ roots, ∃ a, r.load e = .ok a ∧ (a = 0 ∨ objects a)) :
    ∃ k pushed, Exact b m e roots k pushed ∧
      ((∀ a, b.isMarked a = false) → ∀ x, x ∈ pushed ↔ Reachable m e (Reference.targets e roots) x) ∧
      (∀ roots', (∀ r, r ∈ roots' ↔ r ∈ roots) → ∃ k' pushed', Exact b m e roots' k' pushed' ∧
        (∀ i, k'.bitmap.testBit i = k.bitmap.testBit i) ∧ k'.stats.markedObjects = k.stats.markedObjects) ∧
      ∀ (h : Heap) (threadRoots : List Address), h.live = b → h.memory = m → h.encoding = e →
        h.roots.enumerate threadRoots = roots →
          (Heap.markLive threadRoots).run h = .ok k.stats { h with phase := .marking, live := k.bitmap } ∧
          ∃ k₁, h.roots.visit (Roots.reading (onSlot e)) (.ok () (start b)) threadRoots =
              (.ok () k₁, h.roots, threadRoots) ∧
            (drain m e (b.mapWords * mapWordBits)).run k₁ = .ok () k := by
  obtain ⟨k, pushed, hexact⟩ := exists_exact hsize hgraph hroots
  refine ⟨k, pushed, hexact, fun hblank x => (hexact.found x).trans (found_iff_reachable hblank x), ?_, ?_⟩
  · intro roots' hsame
    obtain ⟨k', pushed', hexact'⟩ := exists_exact hsize hgraph fun r hr => hroots r ((hsame r).1 hr)
    obtain ⟨hbits, hcount⟩ := hexact.congr hexact' hsame
    exact ⟨k', pushed', hexact', hbits, hcount⟩
  · rintro h threadRoots rfl rfl rfl rfl
    exact ⟨hexact.markLive, hexact.visit⟩

end Search

/-! Four objects of two granules of two words each: two that refer to each other, one of them with narrow references, a
third one that was marked before, and a filler that only the third one refers to. -/

def ringBits : Bitmap :=
  ({ covered := ⟨4096, 4224⟩, granuleBytes := 16, mapWords := 1, storage := ⟨4096, "marking bitmap", true⟩,
     words := .blank } : Bitmap).mark 4160

def ringMemory : Memory :=
  let m := Object.setRef (Object.setRef (Object.format .blank 4096 4 2) 4096 0 4128) 4096 1 4160
  let m := Object.setNarrowRef (Object.formatNarrow m 4128 4 2) 4128 1 1
  Object.fill (Object.setRef (Object.format m 4160 4 1) 4160 0 4192) 4192 4

/-- A search that stops at an object that was marked before. -/
theorem exists_exact_search : ∃ k pushed, Exact ringBits ringMemory ⟨4080, 4⟩ [.narrow 3, .wide 0, .narrow 3] k pushed ∧
    k.stats = ⟨2, 1⟩ ∧ k.bitmap.isMarked 4192 = false := by
  have hgraph := ObjectGraph.of_check (show ObjectGraph.check ringBits ringMemory ⟨4080, 4⟩ [4096, 4128, 4160, 4192] = true by decide +kernel)
  obtain ⟨k, pushed, hexact, -⟩ := search_exact (by decide) hgraph (show ∀ r ∈ [Reference.narrow 3, .wide 0, .narrow 3], _ from by
    intro r hr
    simp only [List.mem_cons, List.not_mem_nil, or_false] at hr
    rcases hr with rfl | rfl | rfl
    · exact ⟨4128, rfl, by simp⟩
    · exact ⟨0, rfl, .inl rfl⟩
    · exact ⟨4128, rfl, by simp⟩)
  have hrun : (match (run ringBits ringMemory ⟨4080, 4⟩ [.narrow 3, .wide 0, .narrow 3]) with
      | (.ok stats, b) => decide (stats = ⟨2, 1⟩ ∧ b.isMarked 4192 = false)
      | _ => false) = true := by decide +kernel
  rw [hexact.run] at hrun
  obtain ⟨hstats, hmark⟩ := of_decide_eq_true hrun
  exact ⟨k, pushed, hexact, hstats, hmark⟩

end Marker
end MarkSweep
