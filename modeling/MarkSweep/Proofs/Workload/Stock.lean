import MarkSweep.Proofs.Workload.Retention
/-!
# The heap of a workload

`Heap.Stocked h ts P` is what holds of the heap whatever the workers do: the global object lies at its low end and is the
only one that a root outside the workers refers to, and every object of `P`, among which all roots are, is shallow.  A cycle
keeps it (`Stocked.pass`), and so does a worker that makes an object of words it was granted (`Stocked.make`).
-/
namespace MarkSweep

/-! ## One object with one reference -/

namespace Object

variable {m : Memory} {a : Address} {words target : Nat}

/-- An object of `words` words that refers to `target`. -/
def linked (m : Memory) (a : Address) (words target : Nat) : Memory := setRef (format m a words 1) a 0 target

theorem header_linked (hwords : words < Header.sizeLimit) : header (linked m a words target) a = ⟨words, 1, 0⟩ := by
  have hword : (linked m a words target).word (a / wordBytes) = (format m a words 1).word (a / wordBytes) := by
    rw [linked, word_setRef, if_neg (by omega)]
  rw [header_congr hword, format, header_write, Nat.mod_eq_of_lt hwords]
  rfl

/-- Without flags, an object is no filler and its references are wide. -/
theorem isFiller_of_plain (size refs : Nat) :
    Header.isFiller ⟨size, refs, 0⟩ = false ∧ Header.isNarrow ⟨size, refs, 0⟩ = false :=
  ⟨Nat.zero_testBit 0, Nat.zero_testBit 1⟩

theorem slots_linked (hwords : words < Header.sizeLimit) : slots (linked m a words target) a = [.wide (wideSlot a 0)] := by
  unfold slots
  rw [header_linked hwords]
  simp only [isFiller_of_plain, Bool.false_eq_true, if_false]
  rfl

theorem linkWords_linked (hwords : words < Header.sizeLimit) : linkWords (linked m a words target) a = 2 := by
  unfold linkWords isFiller
  rw [header_linked hwords]
  simp only [isFiller_of_plain, Bool.false_eq_true, if_false]
  rfl

theorem load_linked (e : NarrowEncoding) : Slot.load (linked m a words target) e (.wide (wideSlot a 0)) = .ok target := by
  rw [linked, load_setRef, if_pos rfl]

theorem pointsTo_linked (hwords : words < Header.sizeLimit) (e : NarrowEncoding) (y : Address) :
    PointsTo (linked m a words target) e a y ↔ y ≠ 0 ∧ y = target := by
  unfold PointsTo
  rw [slots_linked hwords]
  refine and_congr_right fun _ => ?_
  simp only [List.mem_singleton, exists_eq_left, load_linked, Except.ok.injEq]
  exact eq_comm

theorem sameBut_linked (m : Memory) (a : Address) (target : Nat) {n : Nat} (hpos : 2 ≤ n) (hle : words ≤ n) :
    m.SameBut (linked m a words target) (a / wordBytes) (a / wordBytes + n) := by
  intro i hi
  rw [linked, word_setRef, if_neg (by omega)]
  exact sameBut_write m 1 0 (Nat.lt_of_lt_of_le Nat.zero_lt_two hpos) hle i hi

end Object

namespace Heap

variable {h h' h₁ : Heap} {ts ts' ts₁ pre post : List Tile} {P P' : Address → Prop} {id : Option MutatorId} {cause : Cause}

/-! ## Closed sets of objects -/

theorem Closed.restrict {s : Space} {m : Memory} {e : NarrowEncoding} (hc : Closed s m e ts P) (hsub : ∀ x, P' x → P x)
    (htarget : ∀ x y, P' x → PointsTo m e x y → P' y) : Closed s m e ts P' := by
  refine ⟨fun x hx => hc.tile x (hsub x hx), ?_⟩
  intro x hx sl hsl
  obtain ⟨a, ha, -⟩ := hc.slots x (hsub x hx) sl hsl
  by_cases hne : a = 0
  · exact ⟨a, ha, .inl hne⟩
  · exact ⟨a, ha, .inr (htarget x a hx ⟨hne, sl, hsl, ha⟩)⟩

theorem Closed.insert {s : Space} {m : Memory} {e : NarrowEncoding} {a : Address} (hc : Closed s m e ts P)
    (htile : ∃ t ∈ ts, t.kind = .object ∧ a = s.address t.first ∧ Object.linkWords m a ≤ t.count * s.granuleWords)
    (hslots : ∀ sl ∈ Object.slots m a, ∃ b, sl.load m e = .ok b ∧ (b = 0 ∨ P b)) :
    Closed s m e ts fun x => P x ∨ x = a := by
  constructor
  · rintro x (hx | rfl)
    · exact hc.tile x hx
    · exact htile
  · rintro x (hx | rfl) sl hsl
    · obtain ⟨b, hb, hP⟩ := hc.slots x hx sl hsl
      exact ⟨b, hb, hP.imp_right .inl⟩
    · obtain ⟨b, hb, hP⟩ := hslots sl hsl
      exact ⟨b, hb, hP.imp_right .inl⟩

/-- A completed cycle spares the live objects. -/
theorem Collected.spares {stats : CycleStats} (a : Collected h ts h' ts' stats) :
    Spares h.space h.memory ts h'.memory ts' h.Live := by
  intro t ht hk hx
  have hmem := (a.live t hk).2 ⟨ht, hx⟩
  exact ⟨hmem, a.kept t hmem hk⟩

/-! ## The invariant -/

/-- The roots of a workload: one handle. -/
def oneRoot (a : Address) : Roots := ⟨#[#[a]], #[], [(.globalHandles, .table 0)]⟩

/-- What the sizes of a workload and its one handle come to. -/
structure Furnished (h : Heap) : Prop where
  granted : h.granted = true
  granule : h.space.granuleWords = 2
  max_tlab : h.maxTlabWords + 2 < Header.sizeLimit
  max_tlab_pos : 0 < h.maxTlabWords
  min_tlab : h.settings.minTlabSize / wordBytes ≤ h.space.region.wordSize
  room : 16 ≤ h.space.region.wordSize
  roots : h.roots = oneRoot h.low

theorem Furnished.congr (a : h.Furnished) (hf : h.SameFrame h') : h'.Furnished := by
  have hg := hf.grid
  constructor
  case granted => rw [hf.granted, a.granted]
  case granule => rw [hg.2, a.granule]
  case max_tlab => rw [hf.max_tlab]; exact a.max_tlab
  case max_tlab_pos => rw [hf.max_tlab]; exact a.max_tlab_pos
  case min_tlab => rw [hf.settings, hg.1]; exact a.min_tlab
  case room => rw [hg.1]; exact a.room
  case roots => rw [hf.roots, a.roots, low, low, hg.1]

/-- **What holds of the heap of a workload.** -/
structure Stocked (h : Heap) (ts : List Tile) (P : Address → Prop) : Prop where
  sound : h.Sound ts
  settled : Settled ts
  furnished : h.Furnished
  closed : Closed h.space h.memory h.encoding ts P
  rooted : h.Rooted P
  shallow : ∀ x, P x → Shallow h.memory h.encoding x
  header : Object.header h.memory h.low = ⟨Workload.globalWords, 0, 0⟩

/-- From `h` to `h'`, the objects of `P` refer to what they referred to. -/
def SameLinks (h h' : Heap) (P : Address → Prop) : Prop :=
  ∀ x, P x → ∀ y, PointsTo h'.memory h'.encoding x y ↔ PointsTo h.memory h.encoding x y

theorem mem_rootReferences {r : Reference} : r ∈ h.rootReferences ↔
    (∃ s ∈ h.roots.sources, r ∈ h.roots.references s.2) ∨ ∃ m ∈ h.mutators, r ∈ m.roots.references := by
  unfold rootReferences
  rw [List.mem_append, List.mem_flatMap, List.mem_flatMap]

namespace Stocked

theorem countable (a : h.Stocked ts P) {words : Nat} (hwords : words + 2 < Header.sizeLimit) :
    h.space.Countable words := by
  intro _
  unfold Space.granulesFor
  rw [a.furnished.granule]
  omega

theorem low_eq (h : Heap) : h.low = h.space.address 0 := (h.space.address_zero).symm

/-- The global object is among the objects. -/
theorem mem_low (a : h.Stocked ts P) : P h.low := by
  have hmem : Reference.wide h.low ∈ h.rootReferences := by
    rw [mem_rootReferences, a.furnished.roots]
    exact .inl ⟨_, List.mem_singleton_self _, by simp [Roots.references, Roots.table, oneRoot]⟩
  obtain ⟨x, hx, hP⟩ := a.rooted _ hmem
  cases hx
  exact hP.resolve_left (Nat.ne_of_gt a.sound.framed.start_pos)

theorem leaf_low (a : h.Stocked ts P) : Leaf h.memory h.encoding h.low := by
  rintro y ⟨-, sl, hsl, -⟩
  obtain ⟨-, i, hi, -⟩ := Object.mem_slots.1 hsl
  rw [a.header] at hi
  cases hi

/-- **A step of the heap that spares the objects of `P'` keeps the invariant for them.** -/
theorem transport (a : h.Stocked ts P) (hs : h'.Sound ts') (hset : Settled ts') (hf : h.SameFrame h')
    (hsub : ∀ x, P' x → P x) (htarget : ∀ x y, P' x → PointsTo h.memory h.encoding x y → P' y)
    (hspare : Spares h.space h.memory ts h'.memory ts' P') (hr : h'.Rooted P') :
    h'.Stocked ts' P' ∧ h.SameLinks h' P' := by
  have hc := a.closed.restrict hsub htarget
  have htiled := a.sound.mapped.tiled
  have hlinks : h.SameLinks h' P' := by
    intro x hx y
    rw [hf.encoding]
    exact hc.pointsTo_iff htiled hspare hx y
  have hlow : P' h.low := by
    have hmem : Reference.wide h.low ∈ h'.rootReferences := by
      rw [mem_rootReferences, hf.roots, a.furnished.roots]
      exact .inl ⟨_, List.mem_singleton_self _, by simp [Roots.references, Roots.table, oneRoot]⟩
    obtain ⟨x, hx, hP⟩ := hr _ hmem
    cases hx
    exact hP.resolve_left (Nat.ne_of_gt a.sound.framed.start_pos)
  refine ⟨⟨hs, hset, a.furnished.congr hf, ?_, hr, ?_, ?_⟩, hlinks⟩
  · rw [hf.encoding]
    exact hc.keeps htiled hf.grid hspare
  · exact fun x hx => (a.shallow x (hsub x hx)).congr (hlinks x hx) fun y hy => hlinks y (htarget x y hx hy)
  · obtain ⟨-, hsame⟩ := hc.sameOn htiled hspare hlow
    rw [low, hf.grid.1, ← low,
      Object.header_congr (hsame _ (Nat.le_refl _) (Nat.lt_add_of_pos_right (Object.linkWords_pos _ _))), a.header]

/-- **A cycle, or none**, keeps what is live. -/
theorem pass (a : h.Stocked ts P) (hp : h.Passes ts id cause h₁ ts₁) (hs : h₁.Sound ts₁) (hset : Settled ts₁) :
    ∃ P₁, h₁.Stocked ts₁ P₁ ∧ h.SameLinks h₁ P₁ ∧ ∀ x, P₁ x → P x := by
  have hrefs : h₁.rootReferences = h.rootReferences := by
    unfold rootReferences
    rw [hp.frame.roots, hp.mutators.1]
  have hencoding := hp.frame.encoding
  have hframe := hp.frame
  rcases hp with ⟨hun, rfl⟩ | ⟨stats, -, hcol⟩
  · have hspare : Spares h.space h.memory ts₁ h₁.memory ts₁ P := by
      rw [hun.memory]
      exact (Keeps.refl _ _ _).spares P
    obtain ⟨a₁, hlinks⟩ := a.transport hs hset hframe (fun _ hx => hx) (fun _ _ hx hp => a.closed.pointsTo hx hp) hspare
      (by intro r hr; rw [hencoding]; exact a.rooted r (hrefs ▸ hr))
    exact ⟨P, a₁, hlinks, fun _ hx => hx⟩
  · obtain ⟨a₁, hlinks⟩ := a.transport hs hset hframe (fun x (hx : h.Live x) => a.rooted.of_live a.closed hx)
      (fun x y hx hp => .step hx hp) hcol.spares (by
        intro r hr
        obtain ⟨x, hx, hP⟩ := a.rooted r (hrefs ▸ hr)
        refine ⟨x, by rw [hencoding]; exact hx, ?_⟩
        by_cases hne : x = 0
        · exact .inl hne
        · exact .inr (.root (mem_rootTargets.2 ⟨r, hrefs ▸ hr, hx⟩) hne))
    exact ⟨h.Live, a₁, hlinks, fun x hx => a.rooted.of_live a.closed hx⟩

/-- **A step without a cycle that leaves no root to anything new.** -/
theorem carry (a : h.Stocked ts P) (hs : h'.Sound ts') (hset : Settled ts') (hc : h.Carries ts h' ts')
    (hr : ∀ m ∈ h'.mutators, ∀ r ∈ m.roots.references, ∃ x, r.load h.encoding = .ok x ∧ (x = 0 ∨ P x)) :
    h'.Stocked ts' P ∧ h.SameLinks h' P := by
  refine a.transport hs hset hc.frame (fun _ hx => hx) (fun _ _ hx hp => a.closed.pointsTo hx hp) (hc.keeps.spares P) ?_
  intro r hmem
  rw [hc.frame.encoding]
  rcases mem_rootReferences.1 hmem with hroot | ⟨m, hm, hr'⟩
  · rw [hc.frame.roots] at hroot
    exact a.rooted r (mem_rootReferences.2 (.inl hroot))
  · exact hr m hm r hr'

/-- What a mutator of a stocked heap holds is null or an object. -/
theorem loads (a : h.Stocked ts P) {m : Mutator} (hm : m ∈ h.mutators) :
    ∀ r ∈ m.roots.references, ∃ x, r.load h.encoding = .ok x ∧ (x = 0 ∨ P x) := fun r hr =>
  a.rooted r (mem_rootReferences.2 (.inr ⟨m, hm, hr⟩))

theorem wide_cases (a : h.Stocked ts P) {m : Mutator} (hm : m ∈ h.mutators) {x : Address} (hx : x ∈ m.roots.wide) :
    x = 0 ∨ P x := by
  obtain ⟨y, hy, hP⟩ := a.loads hm (.wide x)
    (List.mem_append_left _ (List.mem_map_of_mem (Array.mem_toList_iff.2 hx)))
  cases hy
  exact hP

/-- One more object that the program may come to hold. -/
theorem insert (a : h.Stocked ts P) {x : Address}
    (htile : ∃ t ∈ ts, t.kind = .object ∧ x = h.space.address t.first ∧
      Object.linkWords h.memory x ≤ t.count * h.space.granuleWords)
    (hslots : ∀ sl ∈ Object.slots h.memory x, ∃ b, sl.load h.memory h.encoding = .ok b ∧ (b = 0 ∨ P b))
    (hshallow : Shallow h.memory h.encoding x) : h.Stocked ts fun y => P y ∨ y = x := by
  refine ⟨a.sound, a.settled, a.furnished, a.closed.insert htile hslots, ?_, ?_, a.header⟩
  · intro r hr
    obtain ⟨b, hb, hP⟩ := a.rooted r hr
    exact ⟨b, hb, hP.imp_right .inl⟩
  · rintro y (hy | rfl)
    · exact a.shallow y hy
    · exact hshallow

/-- A mutator comes to hold other objects. -/
theorem hold (a : h.Stocked ts P) (i : MutatorId) {f : RootSlots → RootSlots}
    (hf : ∀ m ∈ h.mutators, m.id = i → ∀ r ∈ (f m.roots).references, ∃ x, r.load h.encoding = .ok x ∧ (x = 0 ∨ P x)) :
    (h.updateRoots i f).Stocked ts P := by
  have hfurnished := a.furnished
  refine ⟨a.sound.updateRoots i f, a.settled, ⟨hfurnished.granted, hfurnished.granule, hfurnished.max_tlab,
    hfurnished.max_tlab_pos, hfurnished.min_tlab, hfurnished.room, hfurnished.roots⟩, a.closed, ?_, a.shallow, a.header⟩
  intro r hr
  rcases mem_rootReferences.1 hr with hroot | ⟨m, hm, hr'⟩
  · exact a.rooted r (mem_rootReferences.2 (.inl hroot))
  · obtain ⟨m', hm', rfl⟩ := List.mem_map.1 hm
    by_cases he : m'.id = i
    · rw [if_pos he] at hr'
      exact hf m' hm' he r hr'
    · rw [if_neg he] at hr'
      exact a.loads hm' r hr'

end Stocked

/-! ## A new object -/

theorem run_setRef {obj : Address} (hwide : (Object.header h.memory obj).isNarrow = false) (i target : Nat) :
    (setRef obj i target).run h = .ok () { h with memory := Object.setRef h.memory obj i target } := by
  unfold setRef
  rw [run_bind_of_ok (EStateM.run_get h), hwide]
  rfl

end Heap

open Heap

variable {o : Workload} {w : Worker} {h h₁ h₂ : Heap} {ts ts₁ pre post : List Tile} {P : Address → Prop} {m : Mutator}
  {k n : Nat}

namespace Worker

theorem words_bounds (w : Worker) : 2 ≤ w.words ∧ w.words ≤ 9 := by
  unfold words payloadWords
  omega

theorem words_lt (w : Worker) : w.words < Header.sizeLimit := Nat.lt_of_le_of_lt w.words_bounds.2 (by decide)

theorem run_make (hm : h.mutator w.mutator = .ok m) (obj : Address) :
    (w.make o obj).run h = .ok (w.grown o, .ready)
      (({ h with memory := Object.linked h.memory obj w.words (previous m.roots) } : Heap).updateRoots w.mutator
        (remember o.keepEvery w.made w.cursor obj)) := by
  have hheader := Object.header_write h.memory obj w.words 1 0
  rw [Nat.mod_eq_of_lt w.words_lt] at hheader
  unfold make
  rw [run_bind_of_ok (EStateM.run_get h), hm, run_bind_of_ok (run_lift_ok _ _), run_bind_of_ok (EStateM.run_modify _ _)]
  unfold Object.linked Heap.format Object.format
  -- from here on the formatted memory stands for itself: to compare it would unfold the seed
  generalize Object.write h.memory obj w.words 1 0 = memory at hheader ⊢
  have hwide : (Object.header memory obj).isNarrow = false := by
    rw [hheader]
    exact (Object.isFiller_of_plain _ _).2
  rw [run_bind_of_ok (run_setRef (h := { h with memory }) hwide 0 _), run_bind_of_ok (EStateM.run_modify _ _)]
  exact EStateM.run_pure _ _

end Worker

/-- Granted words become an object with one reference. -/
theorem Heap.Grants.linked (g : Grants h ts h₂ pre k n post) {words : Nat} (hn : h.space.granulesFor words = n)
    (hlow : 2 ≤ words) (hlt : words < Header.sizeLimit) (before : Address) :
    Places h ts { h₂ with memory := Object.linked h₂.memory (h.space.address k) words before }
      (pre ++ ⟨.object, k, n⟩ :: post) k n := by
  have hgrid := g.carries.frame.grid
  have htiled := g.sound.mapped.tiled
  have hle : words ≤ n * h₂.space.granuleWords := by
    rw [← hn, ← hgrid.granulesFor]
    exact h₂.space.words_le_granulesFor _ htiled.granule_pos
  rw [← hgrid.address]
  refine g.found ?_ ?_
  · rw [h₂.space.wordAt_add, ← htiled.address_div_eq]
    exact Object.sameBut_linked _ _ _ (Nat.le_trans hlow hle) hle
  · unfold Space.Headed Object.size
    rw [Object.header_linked hlt, hgrid.granulesFor]
    exact hn

/-- **One more object** whose reference is null or leads to a leaf. -/
theorem Heap.Stocked.insert_linked (a : h.Stocked ts P) (hmem : (⟨.object, k, n⟩ : Tile) ∈ ts) {x before : Address}
    (hx : x = h.space.address k) {memory : Memory} {words : Nat} (hmemory : h.memory = Object.linked memory x words before)
    (hlt : words < Header.sizeLimit) (hbefore : before = 0 ∨ P before)
    (hleaf : before ≠ 0 → Leaf h.memory h.encoding before) : h.Stocked ts fun y => P y ∨ y = x := by
  have hpoints {y : Address} (hy : PointsTo h.memory h.encoding x y) : y ≠ 0 ∧ y = before := by
    rw [hmemory] at hy
    exact (Object.pointsTo_linked hlt _ y).1 hy
  refine a.insert ⟨_, hmem, rfl, hx, ?_⟩ (fun sl hsl => ⟨before, ?_, hbefore⟩) ⟨fun y z hy hz => ?_, fun y hy => ?_⟩
  · rw [hmemory, Object.linkWords_linked hlt, a.furnished.granule]
    exact Nat.le_mul_of_pos_left 2 (a.sound.mapped.tiled.count_pos hmem)
  · rw [hmemory, Object.slots_linked hlt, List.mem_singleton] at hsl
    rw [hsl, hmemory]
    exact Object.load_linked _
  · exact (hpoints hy).2.trans (hpoints hz).2.symm
  · obtain ⟨hne, rfl⟩ := hpoints hy
    exact hleaf hne

/-- **A worker makes an object of words it was granted**, and everything stays shallow. -/
theorem Heap.Stocked.make (a : h.Stocked ts P) (g : Grants h ts h₂ pre k n post) (hn : h.space.granulesFor w.words = n)
    (hm : h.mutator w.mutator = .ok m) (hold : w.Holds h.memory h.encoding m.roots) :
    ∃ h' ts' P', (w.make o (h.space.address k)).run h₂ = .ok (w.grown o, .ready) h' ∧ h'.Stocked ts' P' ∧
      h'.mutators = (h.updateRoots w.mutator (Worker.remember o.keepEvery w.made w.cursor (h.space.address k))).mutators ∧
      h'.nextMutator = h.nextMutator ∧ h.SameLinks h' P ∧
      (w.made % 2 = 0 → Leaf h'.memory h'.encoding (h.space.address k)) := by
  obtain ⟨hmem, hmid⟩ := mutator_eq_ok hm
  have hlt := w.words_lt
  generalize hbefore : Worker.previous m.roots = before
  have hbefore' : before = 0 ∨ P before := hbefore ▸ a.wide_cases hmem hold.previous_mem
  obtain ⟨memory, hmemory⟩ : ∃ memory, memory = Object.linked h₂.memory (h.space.address k) w.words before := ⟨_, rfl⟩
  -- the granted words become the object
  have hpl := g.linked hn w.words_bounds.1 hlt before
  rw [← hmemory] at hpl
  obtain ⟨a₁, hlinks⟩ := a.carry hpl.sound hpl.settled hpl.carries
    fun m' hm' => a.loads (by rw [← hpl.owners.mutators]; exact hm')
  have hleaf (hne : before ≠ 0) : Leaf memory h₂.encoding before := by
    have hlast := hold.last
    rw [hbefore] at hlast
    exact (hlast.resolve_left hne).congr (hlinks before (hbefore'.resolve_left hne))
  have a₂ := a₁.insert_linked hpl.mem (hpl.carries.frame.grid.address k).symm hmemory hlt hbefore' hleaf
  have hmutators : h₂.mutators = h.mutators := hpl.owners.mutators
  have hm₂ : h₂.mutator w.mutator = .ok m := by
    unfold mutator mutator?
    rw [hmutators]
    exact hm
  refine ⟨_, _, _, ?_, a₂.hold w.mutator (f := Worker.remember o.keepEvery w.made w.cursor (h.space.address k)) ?_, ?_,
    hpl.owners.issued, hlinks, ?_⟩
  · rw [Worker.run_make hm₂, hbefore, ← hmemory]
  · intro m' hm' he r hr
    obtain rfl : m' = m :=
      List.inj_on_of_nodup_map a.sound.mutators.nodup (hmutators ▸ hm') hmem (he.trans hmid.symm)
    obtain ⟨x, rfl, hx⟩ := hold.mem_references_remember hr
    refine ⟨x, rfl, ?_⟩
    rcases hx with hx | rfl | rfl
    · exact (a.wide_cases hmem hx).imp_right .inl
    · exact .inr (.inr rfl)
    · exact .inl rfl
  · unfold updateRoots
    rw [hmutators]
  · intro heven y hy
    change PointsTo memory h₂.encoding _ y at hy
    rw [hmemory] at hy
    obtain ⟨hne, rfl⟩ := (Object.pointsTo_linked hlt _ y).1 hy
    exact hne (hbefore ▸ hold.even heven)

end MarkSweep
