import MarkSweep.Proofs.Heap.Requests
import MarkSweep.Proofs.Session.Advance
import MarkSweep.Proofs.Session.Writes
/-!
# Every step keeps the invariant of a session

`Step.leads` goes through the operations one by one: each runs one cycle from the heap it starts with, or none, and the
invariant holds again after it.  So it holds of every session that is reached (`Reached.inv`).  `Cycled` says which
operation ran a cycle, and how it went on from the heap that the cycle left.
-/
namespace MarkSweep
namespace Session

variable {s s' : Session} {h' h₁ : Heap} {ts ts' ts₁ : List Tile} {id : Option MutatorId} {cause : Cause}

/-- **How a step ran the cycle** that left heap `h₁`, for whom and why.  After a collection and after a request that is
refused, this is the heap that the step leaves.  A request that is granted goes on from it: the same request, made of that
heap, has the same answer and leaves the same heap as the step. -/
inductive Cycled (s : Session) (h₁ : Heap) : Option MutatorId → Cause → Session → Prop
  | collect {id : Option MutatorId} {cause : Cause} {r : Except HeapError Unit} (known : s.Knows id)
      (run : (Heap.collect id cause).run s.heap = .ok r h₁) : Cycled s h₁ id cause (s.after h₁)
  | collectFull {r : Except HeapError Unit} (run : Heap.collectFull.run s.heap = .ok r h₁) :
      Cycled s h₁ none s.heap.cause (s.after h₁)
  | allocate {words : Nat} {a : Address} {h' : Heap} (run : (Heap.allocate words).run s.heap = .ok (.ok a) h')
      (again : (Heap.allocate words).run h₁ = .ok (.ok a) h') :
      Cycled s h₁ none .allocationFailure (s.granted h' a words none (s.filler a words))
  | allocateRefused {words : Nat} {e : HeapError} (run : (Heap.allocate words).run s.heap = .ok (.error e) h₁) :
      Cycled s h₁ none .allocationFailure (s.after h₁)
  | newTlab {min requested : Nat} {id : TlabId} {h' : Heap}
      (run : (Heap.newTlab min requested).run s.heap = .ok (.ok id) h')
      (again : (Heap.newTlab min requested).run h₁ = .ok (.ok id) h') :
      Cycled s h₁ none .allocationFailure { s.after h' with externals := s.externals ++ [id] }
  | newTlabRefused {min requested : Nat} {e : HeapError}
      (run : (Heap.newTlab min requested).run s.heap = .ok (.error e) h₁) :
      Cycled s h₁ none .allocationFailure (s.after h₁)
  | allocateFor {i : MutatorId} {words : Nat} {l : Layout} {a : Address} {h' : Heap} (known : s.Knows (some i))
      (run : (Heap.allocateFor i words).run s.heap = .ok (.ok a) h')
      (again : (Heap.allocateFor i words).run h₁ = .ok (.ok a) h') (fits : l.Fits words) :
      Cycled s h₁ (some i) .allocationFailure
        (s.granted { h' with memory := l.format a words h'.memory } a words (some l) (l.format a words))
  | allocateForRefused {i : MutatorId} {words : Nat} {e : HeapError} (known : s.Knows (some i))
      (run : (Heap.allocateFor i words).run s.heap = .ok (.error e) h₁) :
      Cycled s h₁ (some i) .allocationFailure (s.after h₁)

/-- **What a step comes to**: no cycle completed, or one did from the heap before the step, and what the step did then
left the objects of heap `h₁` alone. -/
def Leads (s : Session) (ts : List Tile) (s' : Session) : Prop :=
  ∃ ts', s'.Inv ts' ∧
    ((s'.heap.collections = s.heap.collections ∧ s'.heap.lastCycle = s.heap.lastCycle) ∨
    ∃ id cause h₁ ts₁ stats, s.Cycled h₁ id cause s' ∧ (Heap.collectNow id cause).run s.heap = .ok (.ok stats) h₁ ∧
      s.heap.Collected ts h₁ ts₁ stats ∧ h₁.Carries ts₁ s'.heap ts')

/-! ## What operations have in common -/

namespace Inv

theorem passes_refl (s : Session) (ts : List Tile) : s.heap.Passes ts none .noGc s.heap ts := .inl ⟨.refl _, rfl⟩

theorem leads_of_same (hc : s'.heap.collections = s.heap.collections) (hl : s'.heap.lastCycle = s.heap.lastCycle)
    (hi' : s'.Inv ts') : s.Leads ts s' :=
  ⟨ts', hi', .inl ⟨hc, hl⟩⟩

theorem leads_of_passes (hp : s.heap.Passes ts id cause h₁ ts₁) (hc : h₁.Carries ts₁ s'.heap ts') (hi' : s'.Inv ts')
    (hcycled : s.Cycled h₁ id cause s') : s.Leads ts s' := by
  rcases hp with ⟨hun, -⟩ | ⟨stats, hrun, hcol⟩
  · exact leads_of_same (hc.collections.trans hun.collections) (hc.lastCycle.trans hun.lastCycle) hi'
  · exact ⟨ts', hi', .inr ⟨id, cause, h₁, ts₁, stats, hcycled, hrun, hcol, hc⟩⟩

theorem leads_pass (hi : s.Inv ts) (hp : s.heap.Passes ts id cause h₁ ts₁) (hs₁ : h₁.Sound ts₁) (hset₁ : Settled ts₁)
    (hcycled : s.Cycled h₁ id cause (s.after h₁)) : s.Leads ts (s.after h₁) :=
  leads_of_passes hp (.refl _ _) (hi.pass hp hs₁ hset₁) hcycled

theorem pass_carry (hi : s.Inv ts) (hp : s.heap.Passes ts id cause h₁ ts₁) (hs₁ : h₁.Sound ts₁) (hset₁ : Settled ts₁)
    (hs' : h'.Sound ts') (hset' : Settled ts') (hc : h₁.Carries ts₁ h' ts') (hinst : h₁.Installs ts₁ h')
    (hroots : ∀ r ∈ h'.rootReferences, r ∈ h₁.rootReferences)
    (hext : ∀ id ∈ s.externals, id ∈ h'.tlabs.registered ∧ ∀ m ∈ h'.mutators, m.tlab ≠ id) : (s.after h').Inv ts' := by
  have hi₁ := (hi.pass hp hs₁ hset₁).carry hs' hset' hc hinst hroots hext
  rwa [after_after hc.collections hp.registered.2] at hi₁

theorem externals_of_sameOwners (hi : s.Inv ts) (hp : s.heap.Passes ts id cause h₁ ts₁) (ho : h₁.SameOwners h') :
    ∀ id ∈ s.externals, id ∈ h'.tlabs.registered ∧ ∀ m ∈ h'.mutators, m.tlab ≠ id := by
  intro id hid
  rw [ho.registered, ho.mutators, hp.registered.1, hp.mutators.1]
  exact hi.externals id hid

/-- **A cycle or none, and an object that is granted.** -/
theorem place (hi : s.Inv ts) (hp : s.heap.Passes ts id cause h₁ ts₁) (hs₁ : h₁.Sound ts₁) (hset₁ : Settled ts₁)
    {words k : Nat} (hpl : h₁.Places ts₁ h' ts' k (s.heap.space.granulesFor words)) {m : Memory} {size refs flags : Nat}
    (hm : h'.memory = Object.write m (s.heap.space.address k) size refs flags) (hpos : 0 < size) (hwords : words ≤ size)
    (hsize : size ≤ s.heap.space.granulesFor words * s.heap.space.granuleWords) {layout : Option Layout}
    (hheader : ⟨size, refs % Header.refsLimit, flags % Header.refsLimit⟩ =
      s.headerOf ⟨s.heap.space.address k, words, layout, 0⟩)
    (hfits : ∀ l, layout = some l → l.Fits words) :
    (s.granted h' (s.heap.space.address k) words layout
      fun m => Object.write m (s.heap.space.address k) size refs flags).Inv ts' := by
  have hg := hp.frame.grid.trans hpl.carries.frame.grid
  have hi' : (s.after h').Inv ts' := hi.pass_carry hp hs₁ hset₁ hpl.sound hpl.settled hpl.carries hpl.installs
    (fun r hr => rootReferences_eq hpl.carries.frame hpl.owners.mutators ▸ hr) (hi.externals_of_sameOwners hp hpl.owners)
  have hlt : size < Header.sizeLimit := by
    rw [← hg.2] at hsize
    exact Nat.lt_of_le_of_lt hsize (hi'.words_lt hpl.mem)
  -- no object from before lies where the new one does
  have hfree : ∀ o ∈ (s.after h').objects, o.start ≠ (s.after h').heap.space.address k := by
    intro o ho
    have ho₁ : o ∈ (s.after h₁).objects := by
      have hc : (s.after h₁).after h' = s.after h' := after_after hpl.carries.collections hp.registered.2
      rw [← hc] at ho
      exact (left_sublist _ _ _).subset ho
    obtain ⟨i, hi', hstart⟩ := ((hi.pass hp hs₁ hset₁).objects o ho₁).tile
    have hap := hpl.apart _ hi' rfl
    have hpos₁ := hs₁.mapped.tiled.count_pos hi'
    have hn := s.heap.space.granulesFor_pos words (by rw [← hg.2]; exact hpl.sound.mapped.tiled.granule_pos)
    intro he
    have hik : i = k :=
      hs₁.mapped.tiled.address_inj.1 (hstart.symm.trans (he.trans (hpl.carries.frame.grid.address k)))
    simp only [Tile.stop] at hap hpos₁
    omega
  have hmem : (⟨.object, k, h'.space.granulesFor words⟩ : Tile) ∈ ts' := by rw [hg.granulesFor]; exact hpl.mem
  rw [granted_eq hg, ← hg.address]
  rw [← hg.address] at hm
  refine hi'.grant rfl hmem hfree hm hpos hwords ?_ rfl ?_ hfits
  · show size ≤ h'.space.granulesFor words * h'.space.granuleWords
    rwa [hg.granulesFor, hg.2]
  have hheader' := hheader
  unfold headerOf at hheader' ⊢
  simp only [after, hg.granulesFor, hg.2] at hheader' ⊢
  rw [← hheader', hm, Object.header_write, Nat.mod_eq_of_lt hlt]

/-- An object that is granted to an external thread comes as a filler of whole granules. -/
theorem place_filler (hi : s.Inv ts) (hp : s.heap.Passes ts id cause h₁ ts₁) (hs₁ : h₁.Sound ts₁) (hset₁ : Settled ts₁)
    {words k : Nat} (hpl : h₁.Places ts₁ h' ts' k (s.heap.space.granulesFor words)) {m : Memory}
    (hm : h'.memory = Object.fill m (s.heap.space.address k)
      (s.heap.space.granulesFor words * s.heap.space.granuleWords)) :
    (s.granted h' (s.heap.space.address k) words none (s.filler (s.heap.space.address k) words)).Inv ts' := by
  have hg := hi.sound.mapped.tiled.granule_pos
  exact hi.place hp hs₁ hset₁ hpl hm (Nat.mul_pos (s.heap.space.granulesFor_pos words hg) hg)
    (s.heap.space.words_le_granulesFor words hg) (Nat.le_refl _) rfl fun l hl => by cases hl

/-! ## External threads -/

theorem leads_allocate (hi : s.Inv ts) {words : Nat} {r : Except HeapError Address}
    (hrun : (Heap.allocate words).run s.heap = .ok r h') :
    match r with
    | .ok a => s.Leads ts (s.granted h' a words none (s.filler a words))
    | .error _ => s.Leads ts (s.after h') := by
  obtain ⟨h₁, ts₁, hp, hs₁, hset₁, ⟨e, he, -⟩ | ⟨h₂, ts₂, k, hok, hagain, -, hpl, hm, -⟩⟩ :=
    Heap.allocate_spec hi.sound hi.settled hi.closed hi.roots (hi.countable words)
  · cases he.symm.trans hrun
    exact hi.leads_pass hp hs₁ hset₁ (.allocateRefused hrun)
  · cases hok.symm.trans hrun
    exact leads_of_passes hp hpl.carries (hi.place_filler hp hs₁ hset₁ hpl hm) (.allocate hrun hagain)

theorem leads_newTlab (hi : s.Inv ts) {min requested : Nat} {r : Except HeapError TlabId}
    (hrun : (Heap.newTlab min requested).run s.heap = .ok r h') :
    match r with
    | .ok id => s.Leads ts { s.after h' with externals := s.externals ++ [id] }
    | .error _ => s.Leads ts (s.after h') := by
  obtain ⟨words, hsize⟩ : ∃ words, s.heap.tlabSizeFor min requested = .ok words := by
    unfold Heap.newTlab at hrun
    rw [run_bind_of_ok (EStateM.run_get _)] at hrun
    obtain ⟨words, h₀, hlift, -⟩ := run_bind_eq_ok hrun
    cases hsize : s.heap.tlabSizeFor min requested with
    | ok words => exact ⟨words, rfl⟩
    | error f => rw [hsize, run_lift_error] at hlift; cases hlift
  obtain ⟨h₁, ts₁, hp, hs₁, hset₁, ⟨e, he⟩ | ⟨h₂, ts₂, id, hok, hagain, hs₂, hset₂, hc, hinst, hnew, hreg, hms, -⟩⟩ :=
    Heap.newTlab_spec hi.sound hi.settled hi.closed hi.roots hsize (hi.countable words)
  · cases he.symm.trans hrun
    exact hi.leads_pass hp hs₁ hset₁ (.newTlabRefused hrun)
  · cases hok.symm.trans hrun
    have hold : ∀ id' ∈ s.externals, id' ∈ h'.tlabs.registered ∧ ∀ m ∈ h'.mutators, m.tlab ≠ id' := by
      intro id' hid
      rw [hreg, hms, hp.registered.1, hp.mutators.1]
      exact ⟨List.mem_append_left _ (hi.externals id' hid).1, (hi.externals id' hid).2⟩
    refine leads_of_passes hp hc ?_ (.newTlab hrun hagain)
    refine (hi.pass_carry hp hs₁ hset₁ hs₂ hset₂ hc hinst (fun r hr => rootReferences_eq hc.frame hms ▸ hr)
      hold).withExternals _ ?_
    intro id' hid
    rcases List.mem_append.1 hid with hid | hid
    · exact hold id' hid
    · rw [List.mem_singleton] at hid
      subst hid
      refine ⟨?_, fun m hm he => hnew ?_⟩
      · show id' ∈ h'.tlabs.registered
        rw [hreg]
        simp
      · have hm' : m ∈ h₁.mutators := hms ▸ hm
        exact he ▸ hs₁.owned m hm'

theorem leads_allocateIn (hi : s.Inv ts) {id : TlabId} {words : Nat} {r : Option Address}
    (hrun : (Heap.allocateIn id words).run s.heap = .ok r h') :
    match r with
    | some a => s.Leads ts (s.granted h' a words none (s.filler a words))
    | none => s.Leads ts (s.after h') := by
  have hp := passes_refl s ts
  rcases Heap.allocateIn_spec hi.sound hi.settled id words with hnone | ⟨h₂, ts₂, k, hok, -, hpl, hm⟩
  · rw [hnone] at hrun
    cases hrun
    exact leads_of_same rfl rfl (hi.pass hp hi.sound hi.settled)
  · rw [hok] at hrun
    cases hrun
    exact leads_of_same hpl.carries.collections hpl.carries.lastCycle (hi.place_filler hp hi.sound hi.settled hpl hm)

theorem leads_dropTlab (hi : s.Inv ts) {id : TlabId} (hid : id ∈ s.externals) :
    s.Leads ts { s.after (s.heap.dropTlab id) with externals := s.externals.filter (· != id) } := by
  obtain ⟨hreg, hfree⟩ := hi.externals id hid
  obtain ⟨ts', hs', hset', hc, hinst, hregs, hms, -⟩ := Heap.dropTlab_spec hi.sound hi.settled hreg hfree
  refine leads_of_same hc.collections hc.lastCycle
    ((hi.withExternals (s.externals.filter (· != id)) fun id' hid' => hi.externals id' (List.mem_filter.1 hid').1).carry
      hs' hset' hc hinst (fun r hr => rootReferences_eq hc.frame hms ▸ hr) ?_)
  intro id' hid'
  obtain ⟨hmem, hne⟩ := List.mem_filter.1 hid'
  show id' ∈ (s.heap.dropTlab id).tlabs.registered ∧ ∀ m ∈ (s.heap.dropTlab id).mutators, m.tlab ≠ id'
  rw [hregs, hms]
  exact ⟨List.mem_filter.2 ⟨(hi.externals id' hmem).1, hne⟩, (hi.externals id' hmem).2⟩

/-! ## Mutators -/

theorem leads_newMutator (hi : s.Inv ts) {i : MutatorId} (hrun : Heap.newMutator.run s.heap = .ok i h') :
    s.Leads ts (s.after h') := by
  obtain ⟨hs', hc, hinst, -, -, hreg, hnew, m, hms, -, htlab, hroots⟩ := Heap.newMutator_spec hi.sound hrun
  refine leads_of_same hc.collections hc.lastCycle
    (hi.carry hs' hi.settled hc hinst (?_) ?_)
  · intro r hr
    unfold Heap.rootReferences at hr ⊢
    rw [hc.frame.roots, hms, List.flatMap_append] at hr
    simpa [hroots, RootSlots.references, RootSlots.empty] using hr
  · intro id hid
    obtain ⟨hold, hother⟩ := hi.externals id hid
    rw [hreg, hms]
    refine ⟨List.mem_append_left _ hold, ?_⟩
    intro m' hm' he
    rcases List.mem_append.1 hm' with hm' | hm'
    · exact hother m' hm' he
    · rw [List.mem_singleton] at hm'
      rw [hm', htlab] at he
      exact hnew (he ▸ hold)

theorem leads_allocateFor (hi : s.Inv ts) {i : MutatorId} (hknown : s.Knows (some i)) {words : Nat}
    {r : Except HeapError Address} (hrun : (Heap.allocateFor i words).run s.heap = .ok r h') :
    match r with
    | .ok a => ∀ l : Layout, l.Fits words →
      s.Leads ts (s.granted { h' with memory := l.format a words h'.memory } a words (some l) (l.format a words))
    | .error _ => s.Leads ts (s.after h') := by
  have hg := hi.sound.mapped.tiled.granule_pos
  obtain ⟨m, hmut⟩ : ∃ m, s.heap.mutator i = .ok m := by
    obtain ⟨m₀, hm₀, rfl⟩ := hknown i rfl
    exact Heap.mutator_of_mem hm₀
  obtain ⟨h₁, ts₁, hp, hs₁, hset₁, ⟨e, he, -⟩ | ⟨h₂, pre, k, post, hok, hagain, -, hgr, -⟩ | ⟨hstops, -⟩⟩ :=
    Heap.allocateFor_spec hi.sound hi.settled hi.closed hi.roots hmut (hi.countable _) (hi.countable words)
  · cases he.symm.trans hrun
    exact hi.leads_pass hp hs₁ hset₁ (.allocateForRefused hknown hrun)
  · cases hok.symm.trans hrun
    intro l hfits
    have hpl := hgr.format words (hp.frame.grid.granulesFor words) l.refs l.flags
    rw [hp.frame.grid.address] at hpl
    have hformat : l.format (s.heap.space.address k) words =
        fun m => Object.write m (s.heap.space.address k) words l.refs l.flags := by
      funext m
      exact l.format_eq _ _ m
    have hcycled : s.Cycled h₁ _ _ _ := .allocateFor hknown hrun hagain hfits
    rw [hformat] at hcycled ⊢
    refine leads_of_passes hp hpl.carries (hi.place hp hs₁ hset₁ hpl rfl ?_ (Nat.le_refl _)
      (s.heap.space.words_le_granulesFor words hg) ?_ fun l' hl' => by cases hl'; exact hfits) hcycled
    · refine Nat.lt_of_lt_of_le ?_ hfits.2
      exact payload_pos ⟨0, 0, some l, 0⟩
    · rw [Nat.mod_eq_of_lt hfits.1, Nat.mod_eq_of_lt l.flags_lt]
      rfl
  · cases hstops.symm.trans hrun

theorem leads_dropMutator (hi : s.Inv ts) {i : MutatorId} (hknown : s.Knows (some i))
    (hrun : (Heap.dropMutator i).run s.heap = .ok () h') : s.Leads ts (s.after h') := by
  obtain ⟨h₂, ts₂, m, hm, -, hok, hs₂, hset₂, hc, hinst, hreg, hms, -⟩ :=
    Heap.dropMutator_spec hi.sound hi.settled (hknown i rfl)
  rw [hok] at hrun
  cases hrun
  have hsub : ∀ m' ∈ h'.mutators, m' ∈ s.heap.mutators := by
    intro m' hm'
    rw [hms] at hm'
    exact (List.mem_filter.1 hm').1
  refine leads_of_same hc.collections hc.lastCycle (hi.carry hs₂ hset₂ hc hinst (?_) ?_)
  · intro r hr
    unfold Heap.rootReferences at hr ⊢
    rw [hc.frame.roots] at hr
    refine List.mem_append.2 ((List.mem_append.1 hr).imp_right ?_)
    intro hr
    obtain ⟨m', hm', hr'⟩ := List.mem_flatMap.1 hr
    exact List.mem_flatMap.2 ⟨m', hsub m' hm', hr'⟩
  · intro id hid
    obtain ⟨hold, hother⟩ := hi.externals id hid
    refine ⟨?_, fun m' hm' => hother m' (hsub m' hm')⟩
    rw [hreg]
    exact List.mem_filter.2 ⟨hold, by simpa using fun he => hother m hm he.symm⟩

/-! ## Operations of either -/

theorem leads_collect (hi : s.Inv ts) (hknown : s.Knows id) {r : Except HeapError Unit}
    (hrun : (Heap.collect id cause).run s.heap = .ok r h') (hcycled : s.Cycled h' id cause (s.after h')) :
    s.Leads ts (s.after h') := by
  obtain ⟨r', h₁, ts₁, hok, hp, hs₁, hset₁⟩ := Heap.collect_spec hi.sound hi.settled hi.closed hi.roots hknown cause
  cases hok.symm.trans hrun
  exact hi.leads_pass hp hs₁ hset₁ hcycled

theorem leads_iterate (hi : s.Inv ts) (hknown : s.Knows id) {objects : List Address}
    (hrun : (Heap.iterate id).run s.heap = .ok objects h') : s.Leads ts (s.after h') := by
  obtain ⟨h₂, ts₂, hok, hs₂, hset₂, hc, -, hreg, hrefills, hms, -⟩ :=
    Heap.iterate_spec hi.sound hi.settled hi.roots hknown
  rw [hok] at hrun
  cases hrun
  refine leads_of_same hc.collections hc.lastCycle (hi.carry hs₂ hset₂ hc (Heap.installs_of_refills hrefills)
    (fun r hr => rootReferences_eq hc.frame hms ▸ hr) ?_)
  intro id hid
  rw [hreg, hms]
  exact hi.externals id hid

/-! ## Roots -/

theorem reroot (hi : s.Inv ts) {roots : Roots} (h : ∀ src ∈ roots.sources, ∀ r ∈ roots.references src.2, s.Refers r) :
    ({ s with heap := { s.heap with roots } } : Session).Inv ts := by
  refine hi.withHeap (hi.sound.aside roots _ _) rfl rfl rfl ?_ hi.externals
  intro r hr
  rcases List.mem_append.1 hr with hr | hr
  · obtain ⟨src, hsrc, hmem⟩ := List.mem_flatMap.1 hr
    exact h src hsrc r hmem
  · exact hi.roots r (List.mem_append_right _ hr)

theorem hold (hi : s.Inv ts) {i : MutatorId} {slots : RootSlots} (h : ∀ r ∈ slots.references, s.Refers r) :
    ({ s with heap := s.heap.updateRoots i fun _ => slots } : Session).Inv ts := by
  refine hi.withHeap (hi.sound.updateRoots i fun _ => slots) rfl rfl rfl ?_ fun id hid => ⟨(hi.externals id hid).1, ?_⟩
  · intro r hr
    rcases List.mem_append.1 hr with hr | hr
    · exact hi.roots r (List.mem_append_left _ hr)
    · obtain ⟨m, hm, hr⟩ := List.mem_flatMap.1 hr
      obtain ⟨m', hm', -, -, -, he | he⟩ := Heap.mem_updateRoots hm
      · exact hi.roots r (List.mem_append_right _ (List.mem_flatMap.2 ⟨m', hm', he ▸ hr⟩))
      · exact h r (he ▸ hr)
  · intro m hm
    obtain ⟨m', hm', -, he, -⟩ := Heap.mem_updateRoots hm
    rw [he]
    exact (hi.externals id hid).2 m' hm'

theorem permit (hi : s.Inv ts) (granted : Bool) : ({ s with heap := { s.heap with granted } } : Session).Inv ts :=
  hi.withHeap (hi.sound.aside _ granted _) rfl rfl rfl hi.roots hi.externals

end Inv

/-! ## Runs -/

/-- **Every step runs one cycle or none, and keeps the invariant.** -/
theorem Step.leads (h : s.Step s') (hi : s.Inv ts) : s.Leads ts s' := by
  cases h with
  | allocate run => exact hi.leads_allocate run
  | allocateRefused run => exact hi.leads_allocate run
  | newTlab run => exact hi.leads_newTlab run
  | newTlabRefused run => exact hi.leads_newTlab run
  | allocateIn _ run => exact hi.leads_allocateIn run
  | allocateInRefused _ run => exact hi.leads_allocateIn run
  | dropTlab known => exact hi.leads_dropTlab known
  | newMutator run => exact hi.leads_newMutator run
  | allocateFor known run fits => exact hi.leads_allocateFor known run _ fits
  | allocateForRefused known run => exact hi.leads_allocateFor known run
  | dropMutator known run => exact hi.leads_dropMutator known run
  | collect known run => exact hi.leads_collect known run (.collect known run)
  | collectFull run =>
    have hcycled := Cycled.collectFull run
    rw [Heap.collectFull_eq] at run
    exact hi.leads_collect (fun _ hid => by cases hid) run hcycled
  | iterate known run => exact hi.leads_iterate known run
  | format mem fits => exact Inv.leads_of_same rfl rfl (hi.format mem fits)
  | store mem layout index known encode => exact Inv.leads_of_same rfl rfl (hi.store mem layout index known encode)
  | poke mem low high => exact Inv.leads_of_same rfl rfl (hi.poke mem low high)
  | reroot refers => exact Inv.leads_of_same rfl rfl (hi.reroot refers)
  | hold refers => exact Inv.leads_of_same rfl rfl (hi.hold refers)
  | permit granted => exact Inv.leads_of_same rfl rfl (hi.permit granted)

theorem inv_start {settings : Settings} {base : Address} {h : Heap} (hnew : Heap.New settings base h)
    (hsmall : h.space.region.wordSize < 2 ^ 32) : (start h).Inv [⟨.free, 0, h.space.granules⟩] := by
  refine ⟨hnew.sound, ?_, ?_, List.nodup_nil, ?_, ?_, hsmall⟩
  · intro t ht hk
    rw [List.mem_singleton] at ht
    rw [ht] at hk
    cases hk
  · intro o ho
    cases ho
  · intro r hr
    unfold Heap.rootReferences at hr
    rw [show (start h).heap = h from rfl, hnew.roots, hnew.mutators] at hr
    simp [Roots.empty] at hr
  · intro id hid
    cases hid

/-- **The invariant holds of every session that is reached.** -/
theorem Reached.inv (h : Reached s) : ∃ ts, s.Inv ts := by
  induction h with
  | create run page base_ne high small => exact ⟨_, inv_start (Heap.create_spec run page base_ne high) small⟩
  | step _ next ih =>
    obtain ⟨ts, hi⟩ := ih
    obtain ⟨ts', hi', -⟩ := next.leads hi
    exact ⟨ts', hi'⟩

/-- **The heap's own store never faults** on a reference of an object to null or to an object, and is a step. -/
theorem Reached.setRef (h : Reached s) {o : Grant} {l : Layout} {j target : Nat} (ho : o ∈ s.objects)
    (hl : o.layout = some l) (hj : j < l.refs) (hknown : target = 0 ∨ s.IsObject target) :
    ∃ s', s.Step s' ∧ (Heap.setRef o.start j target).run s.heap = .ok () s'.heap := by
  obtain ⟨ts, hi⟩ := h.inv
  obtain ⟨n, hn, -⟩ := hi.exists_encode hknown
  exact ⟨_, .store ho hl hj hknown hn, hi.setRef_eq ho hl hn⟩

/-- **The words a buffer granted stay a 64-bit number** for its first `2 ^ 32` ranges, as they are among the words of these. -/
theorem Reached.allocatedWords_lt (h : Reached s) {id : TlabId} (hrefills : (s.heap.tlabs.get id).refills ≤ 2 ^ 32) :
    (s.heap.tlabs.get id).allocatedWords < addressLimit := by
  obtain ⟨ts, hi⟩ := h.inv
  calc (s.heap.tlabs.get id).allocatedWords
      ≤ (s.heap.tlabs.get id).refills * s.heap.space.region.wordSize :=
        Nat.le_of_add_right_le (hi.sound.mapped.buffers.metered id)
    _ ≤ 2 ^ 32 * s.heap.space.region.wordSize := Nat.mul_le_mul_right _ hrefills
    _ < 2 ^ 32 * Header.sizeLimit := Nat.mul_lt_mul_of_pos_left hi.small (by decide)
    _ = addressLimit := rfl

/-! ## A small run -/

/-- A heap of one page with eight granules. -/
def onePage : Settings :=
  { initialHeapSize := 0, maxHeapSize := 4096, minTlabSize := 1024, maxTlabSize := 1024, tlabSize := 1024, granuleWords := 64 }

/-- The roots of a program that has one handle. -/
def oneHandle (a : Address) : Roots := ⟨#[#[a]], #[], [(.globalHandles, .table 0)]⟩

/-- Whether a program that grants itself two objects and roots the second one can run a cycle. -/
def runsCycle (h : Heap) : Bool :=
  decide (h.high < addressLimit ∧ h.space.region.wordSize < 2 ^ 32) &&
  match (Heap.allocate 2).run h with
  | .ok (.ok _) h₁ =>
    match (Heap.allocate 70).run h₁ with
    | .ok (.ok b) h₂ =>
      match (Heap.collect none .explicit).run { h₂.format b 70 1 with roots := oneHandle b } with
      | .ok _ h₃ => b != 0 && h₃.collections == h₂.collections + 1
      | .error _ _ => false
    | _ => false
  | _ => false

/-- A session that is reached, and a cycle that completes from there and finds an object. -/
theorem exists_cycle : ∃ s s' : Session, Reached s ∧ s.Step s' ∧ s'.heap.collections ≠ s.heap.collections ∧
    ∃ o ∈ s.objects, s.heap.Live o.start := by
  have hrun : (match Heap.create onePage 4096 true false with | .ok h => runsCycle h | .error _ => false) = true := by
    decide +kernel
  cases hc : Heap.create onePage 4096 true false with
  | error e => rw [hc] at hrun; cases hrun
  | ok h =>
  rw [hc] at hrun
  simp only [runsCycle, Bool.and_eq_true, decide_eq_true_eq] at hrun
  obtain ⟨⟨hhigh, hsmall⟩, hrun⟩ := hrun
  split at hrun
  case h_2 => cases hrun
  next a h₁ ha =>
  split at hrun
  case h_2 => cases hrun
  next b h₂ hb =>
  split at hrun
  case h_2 => cases hrun
  next r h₃ hr =>
  simp only [Bool.and_eq_true, bne_iff_ne, beq_iff_eq] at hrun
  obtain ⟨hne, hcount⟩ := hrun
  have hfits : Layout.Fits ⟨1, false⟩ 70 := ⟨by decide, by decide⟩
  have h0 : Reached (start h) := .create hc (by decide) (by decide) hhigh hsmall
  have h1 := h0.step (.allocate ha)
  have h2 := h1.step (.allocate (s := (start h).granted h₁ a 2 none ((start h).filler a 2)) hb)
  have h3 := h2.step (.format (List.mem_append_right _ (List.mem_singleton_self _)) hfits)
  have h4 := h3.step (@Step.reroot _ (oneHandle b) fun src hsrc r href => ?_)
  · refine ⟨_, _, h4, .collect (fun _ hi => by cases hi) hr, ?_, _,
      List.mem_map_of_mem (List.mem_append_right _ (List.mem_singleton_self _)), ?_⟩
    · show h₃.collections ≠ h₂.collections
      rw [hcount]
      exact Nat.succ_ne_self _
    · simp only [if_true]
      refine .root (Heap.mem_rootTargets.2 ⟨.wide b, ?_, rfl⟩) hne
      exact List.mem_append_left _ (List.mem_flatMap.2 ⟨_, List.mem_singleton_self _, by
        simp [Roots.references, Roots.table, oneHandle]⟩)
  · obtain rfl : src = (.globalHandles, .table 0) := List.mem_singleton.1 hsrc
    obtain rfl : r = .wide b := by simpa [Roots.references, Roots.table, oneHandle] using href
    exact ⟨b, rfl, .inr ⟨_, List.mem_map_of_mem (List.mem_append_right _ (List.mem_singleton_self _)), by
      simp only [if_true]⟩⟩

end Session
end MarkSweep
