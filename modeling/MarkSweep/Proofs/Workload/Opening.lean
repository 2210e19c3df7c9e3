import MarkSweep.Proofs.Heap.Creation
import MarkSweep.Proofs.Workload.Acts
/-!
# How a workload starts

A heap that was made for a workload is stocked once its global object is allocated, and a worker can always be hired.  With
what `Acts` says of the acts, the invariant holds of every crew that a workload reaches (`Reached.inv`).
-/
namespace MarkSweep

open Heap

variable {o : Workload} {c : Crew} {ts : List Tile} {P : Address → Prop} {h h' : Heap}

/-! ## The global object -/

namespace Workload

variable {settings : Settings} {base : Address}

theorem settings_eq_ok (hsizes : o.settings = .ok settings) : settings.granuleWords = 2 ∧ settings.minTlabSize = 2048 ∧
    settings.maxTlabSize = 4194304 ∧ settings.maxHeapSize = o.heapSize * 1024 * 1024 := by
  unfold Workload.settings at hsizes
  obtain ⟨kilobytes, hkilo, hsizes⟩ := except_bind_eq_ok hsizes
  obtain ⟨heapBytes, hmega, hsizes⟩ := except_bind_eq_ok hsizes
  obtain ⟨tlabBytes, -, hsizes⟩ := except_bind_eq_ok hsizes
  obtain ⟨rfl, -⟩ := checkedMul_eq_ok hkilo
  obtain ⟨rfl, -⟩ := checkedMul_eq_ok hmega
  cases hsizes
  exact ⟨rfl, rfl, rfl, rfl⟩

/-- The first words of a heap that is all free are granted first. -/
theorem carve_low {n words : Nat} (hs : h.Sound [⟨.free, 0, n⟩]) (hfit : words ≤ h.space.region.wordSize)
    (hcount : h.space.Countable words) : ∃ h' pre post, (carve words).run h = .ok (some h.low) h' ∧
      Grants h [⟨.free, 0, n⟩] h' pre 0 (h.space.granulesFor words) post := by
  have htiled := hs.mapped.tiled
  have hset : Settled [⟨.free, 0, n⟩] := by
    intro t ht hk
    rw [List.mem_singleton.1 ht] at hk
    cases hk
  obtain rfl : n = h.space.granules := by
    have hall := htiled.tiling.2.2
    rw [Tile.stop, Nat.zero_add] at hall
    exact hall
  obtain ⟨space, hrun, -⟩ := htiled.allocate_low hs.framed.nonempty hfit
  have hcarve : (carve words).run h = .ok (some (h.space.address 0)) { h with space } := by
    unfold carve
    rw [run_bind_of_ok (EStateM.run_get h), hrun]
    rfl
  obtain ⟨h', pre, k, post, hgrant, g, -, -⟩ := (carve_spec hs hset hcount).resolve_left (by rw [hcarve]; simp)
  obtain ⟨hk, -⟩ := EStateM.Result.ok.inj (hcarve.symm.trans hgrant)
  rw [Option.some.injEq, htiled.address_inj] at hk
  subst hk
  exact ⟨h', pre, post, by rw [Stocked.low_eq, hgrant], g⟩

/-- The memory once the global object was formatted over the filler that it was granted as. -/
def globalMemory (m : Memory) (a : Address) : Memory := Object.format (Object.fill m a 6) a globalWords 0

theorem header_global (m : Memory) (a : Address) : Object.header (globalMemory m a) a = ⟨globalWords, 0, 0⟩ := by
  unfold globalMemory Object.format
  rw [Object.header_write]
  rfl

theorem slots_global (m : Memory) (a : Address) : Object.slots (globalMemory m a) a = [] := by
  unfold Object.slots
  rw [header_global]
  rfl

theorem sameBut_global (m : Memory) (a : Address) :
    m.SameBut (globalMemory m a) (a / wordBytes) (a / wordBytes + 6) :=
  (Object.sameBut_write m 0 Header.fillerFlag (by decide) (by decide)).trans
    (Object.sameBut_write _ 0 0 (by decide) (by decide))

theorem granulesFor_global (hgranule : h.space.granuleWords = 2) : h.space.granulesFor globalWords = 3 := by
  unfold Space.granulesFor
  rw [hgranule]
  rfl

theorem leaf_global (m : Memory) (e : NarrowEncoding) (a : Address) : Leaf (globalMemory m a) e a := by
  rintro y ⟨-, sl, hsl, -⟩
  rw [slots_global] at hsl
  cases hsl

/-- The words of the global object are the first that a heap grants. -/
theorem exists_grant_global (hs : h.Sound [⟨.free, 0, h.space.granules⟩]) (hgranule : h.space.granuleWords = 2)
    (hfit : globalWords ≤ h.space.region.wordSize) :
    ∃ h' pre post, (carve globalWords).run h = .ok (some h'.low) h' ∧ h'.adjust globalWords = .ok 6 ∧
      Grants h [⟨.free, 0, h.space.granules⟩] h' pre 0 3 post := by
  obtain ⟨h', pre, post, hcarve, g⟩ := carve_low hs hfit fun _ => by
    rw [granulesFor_global hgranule, hgranule]
    decide
  rw [granulesFor_global hgranule] at g
  have hgrid := g.carries.frame.grid
  have hadj : h'.adjust globalWords = _ := g.sound.mapped.tiled.adjust_eq (hgrid.1 ▸ hfit)
  rw [granulesFor_global (hgrid.2.trans hgranule), hgrid.2, hgranule] at hadj
  exact ⟨h', pre, post, by rw [hcarve, low, low, hgrid.1], hadj, g⟩

/-- The granted words are an object once they are formatted. -/
theorem places_global {pre post : List Tile} (g : Grants h ts h' pre 0 3 post) (hgranule : h'.space.granuleWords = 2) :
    Places h ts { h' with memory := globalMemory h'.memory h'.low } (pre ++ ⟨.object, 0, 3⟩ :: post) 0 3 := by
  refine g.found ?_ ?_
  · rw [h'.space.wordAt_add, ← g.sound.mapped.tiled.address_div_eq, hgranule, ← Stocked.low_eq]
    exact sameBut_global _ _
  · unfold Space.Headed Object.size
    rw [← Stocked.low_eq, header_global]
    exact granulesFor_global hgranule

/-- The global object refers to nothing. -/
theorem closed_global (hmem : (⟨.object, 0, 3⟩ : Tile) ∈ ts) (hgranule : h.space.granuleWords = 2) (e : NarrowEncoding) :
    Closed h.space (globalMemory h.memory h.low) e ts (· = h.low) := by
  constructor
  · rintro x rfl
    refine ⟨_, hmem, rfl, Stocked.low_eq h, ?_⟩
    unfold Object.linkWords Object.isFiller
    rw [header_global, hgranule]
    decide
  · rintro x rfl sl hsl
    rw [slots_global] at hsl
    cases hsl

/-- The one handle refers to the global object. -/
theorem rooted_global (hroots : h.roots = oneRoot h.low) (hms : h.mutators = []) : h.Rooted (· = h.low) := by
  intro r hr
  rcases mem_rootReferences.1 hr with ⟨s, hsrc, hr⟩ | ⟨m, hm, -⟩
  · rw [hroots] at hsrc hr
    obtain rfl := List.mem_singleton.1 hsrc
    obtain rfl : r = .wide h.low := by simpa [Roots.references, Roots.table, oneRoot] using hr
    exact ⟨_, rfl, .inr rfl⟩
  · rw [hms] at hm
    cases hm

/-- **The global object** is formatted in the words it is granted, and a new handle refers to it. -/
theorem run_keepGlobal {h₁ h₂ : Heap} (hempty : h.roots = .empty)
    (hh₁ : h₁ = { h with roots := ⟨#[#[]], #[], [(.globalHandles, .table 0)]⟩ })
    (hfit : globalWords ≤ h.space.region.wordSize) (hcarve : (carve globalWords).run h₁ = .ok (some h₂.low) h₂)
    (hadj : h₂.adjust globalWords = .ok 6) (hroots : h₂.roots = h₁.roots) : keepGlobal.run h =
      .ok (.ok ()) { h₂ with memory := globalMemory h₂.memory h₂.low, roots := oneRoot h₂.low } := by
  have htable {f : Heap → TableId × Heap} (hf : f h = (0, h₁)) :
      (modifyGet f : HeapM TableId).run h = .ok 0 h₁ := by
    rw [EStateM.run_modifyGet, hf]
  have hfit₁ : globalWords ≤ h₁.space.region.wordSize := by
    rw [hh₁]
    exact hfit
  have hallocate := allocate_of_carveOrCollect (carveOrCollect_of_carve hfit₁ hcarve) hadj
  rw [hh₁] at hroots
  unfold keepGlobal
  rw [run_bind_of_ok (htable (by rw [hempty, hh₁]; rfl)), run_bind_of_ok hallocate]
  simp only
  rw [run_bind_of_ok (EStateM.run_modify _ _)]
  unfold Heap.format Heap.fill globalMemory
  simp only [hroots]
  rfl

/-- **A new heap is stocked once its global object is allocated**: it lies at the low end, and one handle refers to it. -/
theorem stocked_keepGlobal (hnew : New settings base h) (hf : ({ h with roots := oneRoot h.low } : Heap).Furnished) :
    ∃ h' ts, keepGlobal.run h = .ok (.ok ()) h' ∧ h'.Stocked ts (· = h'.low) ∧ h'.mutators = [] := by
  have hfit : globalWords ≤ h.space.region.wordSize := Nat.le_trans (by decide) hf.room
  obtain ⟨h₁, hh₁⟩ : ∃ h₁ : Heap, h₁ = { h with roots := ⟨#[#[]], #[], [(.globalHandles, .table 0)]⟩ } := ⟨_, rfl⟩
  have hspace : h₁.space = h.space := by rw [hh₁]
  have hs₁ : h₁.Sound [⟨.free, 0, h₁.space.granules⟩] := by
    rw [hspace, hh₁]
    exact hnew.sound.aside _ _ _
  obtain ⟨h₂, pre, post, hcarve, hadj, g⟩ := exists_grant_global hs₁ (by rw [hspace]; exact hf.granule) (hspace ▸ hfit)
  have hframe := g.carries.frame
  have hlow : h₂.low = h.low := by rw [low, low, hframe.grid.1, hspace]
  have hms : h₂.mutators = [] := by
    rw [g.owners.mutators, hh₁]
    exact hnew.mutators
  -- all but the roots is as it was made
  have hfurnished : ({ h₂ with memory := globalMemory h₂.memory h₂.low, roots := oneRoot h₂.low } : Heap).Furnished := by
    refine hf.congr ?_
    rw [hh₁] at hframe
    exact ⟨hframe.grid, hframe.covered, hframe.bit_bytes, hframe.map_words, hframe.encoding, hframe.max_tlab,
      hframe.settings, congrArg oneRoot hlow, hframe.granted⟩
  have hpl := places_global g hfurnished.granule
  refine ⟨_, pre ++ ⟨.object, 0, 3⟩ :: post, run_keepGlobal hnew.roots hh₁ hfit hcarve hadj hframe.roots, ?_, hms⟩
  constructor
  case sound => exact hpl.sound.aside _ _ _
  case settled => exact hpl.settled
  case furnished => exact hfurnished
  case closed => exact closed_global (h := h₂) hpl.mem hfurnished.granule _
  case rooted => exact rooted_global rfl hms
  case shallow =>
    rintro x rfl
    exact (leaf_global _ _ _).shallow
  case header => exact header_global _ _

end Workload

/-! ## Hiring -/

theorem Worker.mem_references_rootSlots {r : Reference} (hr : r ∈ Worker.rootSlots.references) : r = .wide 0 := by
  unfold RootSlots.references Worker.rootSlots at hr
  rw [List.map_nil, List.append_nil, Array.toList_replicate, List.map_replicate] at hr
  exact List.eq_of_mem_replicate hr

/-- A mutator joins a stocked heap, with the empty window of a worker. -/
theorem Heap.Stocked.newMutator (a : h.Stocked ts P) : ∃ h' m, Heap.newMutator.run h = .ok h.nextMutator h' ∧
    (h'.updateRoots h.nextMutator fun _ => Worker.rootSlots).Stocked ts P ∧ h.SameLinks h' P ∧
    (h'.updateRoots h.nextMutator fun _ => Worker.rootSlots).mutators = h.mutators ++ [m] ∧ m.id = h.nextMutator ∧
    m.roots = Worker.rootSlots ∧ h'.nextMutator = h.nextMutator + 1 := by
  obtain ⟨i, h', hrun⟩ := exists_newMutator a.sound a.furnished.min_tlab
  obtain ⟨hs, hcar, -, rfl, hnext, -, -, m, hm, hid, -, hroots⟩ := newMutator_spec a.sound hrun
  obtain ⟨a', hlinks⟩ := a.carry hs a.settled hcar fun n hn r hr => by
    rw [hm, List.mem_append, List.mem_singleton] at hn
    rcases hn with hn | rfl
    · exact a.loads hn r hr
    · rw [hroots] at hr
      cases hr
  have hheld := a'.hold h.nextMutator (f := fun _ => Worker.rootSlots) fun _ _ _ r hr => by
    rw [Worker.mem_references_rootSlots hr]
    exact ⟨0, rfl, .inl rfl⟩
  refine ⟨h', { m with roots := Worker.rootSlots }, hrun, hheld, hlinks, ?_, hid, rfl, hnext⟩
  -- a new id belongs to no one else
  unfold updateRoots
  rw [hm, List.map_append, List.map_singleton, if_pos hid]
  refine congrArg (· ++ [{ m with roots := Worker.rootSlots }])
    ((List.map_congr_left fun n hn => ?_).trans (List.map_id' _))
  exact if_neg (Nat.ne_of_lt (a.sound.mutators.issued n hn))

/-- Who stands where in an array after one more was appended. -/
theorem getElem?_push_cases {α : Type} {xs : Array α} {x y : α} {j : Nat} (h : (xs.push x)[j]? = some y) :
    j = xs.size ∧ y = x ∨ j ≠ xs.size ∧ xs[j]? = some y := by
  rw [Array.getElem?_push] at h
  split at h
  · next hj => exact .inl ⟨hj, (Option.some.inj h).symm⟩
  · next hj => exact .inr ⟨hj, h⟩

namespace Crew

/-- The crew with a worker more. -/
def hired (c : Crew) (w : Worker) (h : Heap) : Crew :=
  { c with run := { c.run with heap := h, workers := c.run.workers.push w } }

theorem Listed.hired (hl : c.Listed) {w : Worker} (hid : w.mutator = c.run.heap.nextMutator) {h' : Heap}
    (hnext : h'.nextMutator = c.run.heap.nextMutator + 1) : (c.hired w h').Listed := by
  constructor
  case issued =>
    intro j v hv
    show v.mutator < h'.nextMutator
    rw [hnext]
    rcases getElem?_push_cases hv with ⟨-, rfl⟩ | ⟨-, hv⟩
    · rw [hid]
      exact Nat.lt_succ_self _
    · exact Nat.lt_succ_of_lt (hl.issued j v hv)
  case distinct =>
    intro j k v v' hv hv' he
    rcases getElem?_push_cases hv with ⟨rfl, rfl⟩ | ⟨-, hold⟩ <;>
      rcases getElem?_push_cases hv' with ⟨rfl, rfl⟩ | ⟨-, hold'⟩
    · rfl
    · exact absurd (he.symm.trans hid) (Nat.ne_of_lt (hl.issued k v' hold'))
    · exact absurd (he.trans hid) (Nat.ne_of_lt (hl.issued j v hold))
    · exact hl.distinct j k v v' hold hold' he
  case fresh =>
    intro j hj
    refine hl.fresh j (Nat.le_trans (Nat.le_succ _) ?_)
    simpa [Crew.hired] using hj

/-- **A worker can always be hired.** -/
theorem Inv.hire (hi : c.Inv ts P) : ∃ r w, c.run.hireNext = .ok r ∧ r.workers = c.run.workers.push w ∧ w.made = 0 ∧
    ({ c with run := r } : Crew).Inv ts P := by
  have a := hi.stocked
  obtain ⟨h', m, hrun, a', hlinks, hms, hid, hroots, hnext⟩ := a.newMutator
  obtain ⟨w, hw⟩ : ∃ w : Worker, w =
    ⟨c.run.heap.nextMutator, UInt64.ofNat (c.run.workers.size + 1), 0, 0, .working⟩ := ⟨_, rfl⟩
  have hwid : w.mutator = c.run.heap.nextMutator := by rw [hw]
  have hcursor : w.cursor = 0 := by rw [hw]
  have hwork : w.progress = .working := by rw [hw]
  have hhired : c.run.hireNext =
      .ok (c.hired w (h'.updateRoots c.run.heap.nextMutator fun _ => Worker.rootSlots)).run := by
    unfold WorkloadRun.hireNext WorkloadRun.onHeap
    rw [hrun, hw]
    rfl
  refine ⟨_, w, hhired, rfl, by rw [hw], ⟨a', hi.listed.hired hwid hnext, ?_, ?_, ?_⟩⟩
  case refine_1 =>
    intro j v hv hnot
    rcases getElem?_push_cases hv with ⟨-, rfl⟩ | ⟨-, hv⟩
    · exact absurd hwork hnot
    · exact hi.ended j v hv hnot
  case refine_2 =>
    intro j v hv hvwork
    rcases getElem?_push_cases hv with ⟨rfl, rfl⟩ | ⟨-, hv⟩
    · refine ⟨m, ?_, hid.trans hwid.symm, ?_⟩
      · exact hms ▸ List.mem_append_right _ (List.mem_singleton_self _)
      · show v.HoldsAt _ _ _ (c.stage _)
        rw [hi.listed.fresh _ (Nat.le_refl _), hroots]
        exact Worker.holds_rootSlots hcursor
    · obtain ⟨n, hn, hnid, hholds⟩ := hi.employed j v hv hvwork
      refine ⟨n, hms ▸ List.mem_append_left _ hn, hnid, ?_⟩
      exact hholds.congr fun x hx hne hleaf => hleaf.congr (hlinks x ((a.wide_cases hn hx).resolve_left hne))
  case refine_3 =>
    intro n hn
    rcases List.mem_append.1 (hms ▸ hn) with hn | hn
    · obtain ⟨j, v, hv, hvwork, hvid⟩ := hi.staffed n hn
      have hlt := (Array.getElem?_eq_some_iff.1 hv).1
      exact ⟨j, v, (Array.getElem?_push_lt hlt).trans ((Array.getElem?_eq_getElem hlt).symm.trans hv), hvwork, hvid⟩
    · exact ⟨c.run.workers.size, w, Array.getElem?_push_size, hwork,
        hwid.trans (hid.symm.trans (congrArg Mutator.id (List.mem_singleton.1 hn).symm))⟩

/-- **No hire and no act ever faults**, and each keeps the invariant. -/
theorem Step.inv {c' : Crew} (hs : c.Step o c') (hi : c.Inv ts P) : ∃ ts' P', c'.Inv ts' P' := by
  cases hs with
  | hire _ run =>
    obtain ⟨r, w, hrun, -, -, hi'⟩ := hi.hire
    rw [hrun] at run
    cases run
    exact ⟨_, _, hi'⟩
  | act worker run =>
    obtain ⟨w', stage, h', ts', P', hrun, hi'⟩ := hi.act o worker
    rw [hrun] at run
    cases run
    exact ⟨_, _, hi'⟩
  | excused worker starved => exact ⟨_, _, hi.excused worker starved⟩

/-- **What a workload starts with**: the first allocation of a new heap succeeds. -/
theorem inv_start {settings : Settings} {base : Address} (sizes : o.settings = .ok settings)
    (run : Heap.create settings base true false = .ok h) (page : pageBytes ∣ base) (base_ne : base ≠ 0)
    (high : h.high < addressLimit) :
    ∃ h', (⟨h, #[], #[]⟩ : WorkloadRun).onHeap Workload.keepGlobal = .ok (.ok (), ⟨h', #[], #[]⟩) ∧
      ∃ ts P, (ready ⟨h', #[], #[]⟩).Inv ts P := by
  have hnew := create_spec run page base_ne high
  obtain ⟨hgranted, hmin, hmax⟩ := create_buffers run
  obtain ⟨hgranule, hminSize, hmaxSize, hheapSize⟩ := Workload.settings_eq_ok sizes
  -- the heap has a megabyte at least
  have hroom : 131072 ≤ h.space.region.wordSize := by
    have hpos := hnew.acceptable.granule_le_max
    have hsize := hnew.max_size
    rw [hgranule, hheapSize] at hpos
    rw [hheapSize] at hsize
    rw [hnew.region, Region.wordSize, Region.byteSize, Nat.add_sub_cancel_left, hsize]
    unfold wordBytes pageBytes at *
    omega
  have hpos := create_maxTlabWords_pos run hnew (by rw [hmaxSize, hminSize]; decide)
  have hfurnished : ({ h with roots := oneRoot h.low } : Heap).Furnished := by
    constructor
    case granted => exact hgranted
    case granule => exact hnew.granule_words.trans hgranule
    case max_tlab =>
      show h.maxTlabWords + 2 < Header.sizeLimit
      rw [hmaxSize, hminSize, hgranule] at hmax
      have : 524290 < Header.sizeLimit := by decide
      unfold wordBytes at hmax
      omega
    case max_tlab_pos => exact hpos
    case min_tlab => rw [hmin, hminSize]; exact Nat.le_trans (by decide) hroom
    case room => exact Nat.le_trans (by decide) hroom
    case roots => rfl
  obtain ⟨h', ts, hrun, hstocked, hms⟩ := Workload.stocked_keepGlobal hnew hfurnished
  refine ⟨h', by rw [WorkloadRun.onHeap, hrun], ts, (· = h'.low), hstocked, ⟨?_, ?_, fun _ _ => rfl⟩,
    fun _ _ _ _ => rfl, ?_, ?_⟩
  · intro i w hw
    cases hw
  · intro i j w w' hw
    cases hw
  · intro i w hw
    cases hw
  · intro m hm
    change m ∈ h'.mutators at hm
    rw [hms] at hm
    cases hm

/-- **The invariant holds of every crew that a workload reaches**, in whatever order its workers take their turns. -/
theorem Reached.inv (hc : Reached o c) : ∃ ts P, c.Inv ts P := by
  induction hc with
  | start sizes run page base_ne high kept =>
    obtain ⟨h', hkept, hi⟩ := inv_start sizes run page base_ne high
    rw [hkept] at kept
    cases kept
    exact hi
  | step _ next ih =>
    obtain ⟨ts, P, hi⟩ := ih
    exact next.inv hi

end Crew
end MarkSweep
