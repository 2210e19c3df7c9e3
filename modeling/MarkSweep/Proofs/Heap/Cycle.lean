import MarkSweep.Proofs.Heap.Sound
/-!
# One collection

A completed cycle leaves exactly the live objects, untouched, and makes everything between them free (`Collected`).  An
aborted one changes nothing that matters.
-/
namespace MarkSweep
namespace Heap

/-! ## Marking -/

theorem mem_enumerate {r : Roots} {threadRoots : List Address} {x : Reference} :
    x ∈ r.enumerate threadRoots ↔ (∃ s ∈ r.sources, x ∈ r.references s.2) ∨ ∃ a ∈ threadRoots, x = .wide a := by
  unfold Roots.enumerate
  simp only [List.mem_flatMap, List.mem_append, List.mem_filter, beq_iff_eq]
  constructor
  · rintro ⟨kind, -, ⟨s, ⟨hs, -⟩, hx⟩ | hx⟩
    · exact .inl ⟨s, hs, hx⟩
    · split at hx
      · obtain ⟨a, ha, rfl⟩ := List.mem_map.1 hx
        exact .inr ⟨a, ha, rfl⟩
      · cases hx
  · rintro (⟨s, hs, hx⟩ | ⟨a, ha, rfl⟩)
    · exact ⟨s.1, by cases s.1 <;> simp [RootKind.order], .inl ⟨s, ⟨hs, rfl⟩, hx⟩⟩
    · exact ⟨.threads, by simp [RootKind.order], .inr (by rw [if_pos rfl]; exact List.mem_map_of_mem ha)⟩

/-- The given roots are what the mutators refer to. -/
def ThreadRoots (h : Heap) (threadRoots : List Address) : Prop :=
  ∀ a, a ∈ threadRoots ↔ a ≠ 0 ∧ ∃ m ∈ h.mutators, ∃ r ∈ m.roots.references, r.load h.encoding = .ok a

theorem holds_address {h : Heap} {ts : List Tile} (hs : h.space.Tiled ts) (hf : h.Framed) {k : Nat}
    (hk : k < h.space.granules) : h.live.Holds (h.space.address k) := by
  have hg := hs.granuleBytes_pos
  refine ⟨by rw [hf.bit_bytes]; exact hg, k, ?_, (Space.addressOf_eq hf.covered hf.bit_bytes k).symm⟩
  rw [hf.covered, hf.bit_bytes, Region.byteSize, hs.stop_eq, Space.address, Nat.add_sub_cancel_left,
    Nat.mul_div_cancel _ hg]
  exact hk

/-- **Marking marks exactly the live objects.** -/
theorem markLive_spec {h : Heap} {ts : List Tile} {P : Address → Prop} {threadRoots : List Address}
    (hs : h.space.Tiled ts) (hf : h.Framed) (hblank : ∀ i, h.live.testBit i = false)
    (hc : Closed h.space h.memory h.encoding ts P) (hr : h.Rooted P) (hroots : h.ThreadRoots threadRoots) :
    ∃ (stats : MarkStats) (live : Bitmap) (pushed : List Address),
      (markLive threadRoots).run h = .ok stats { h with phase := .marking, live } ∧
      h.live.SameFrame live ∧ pushed.Nodup ∧ (∀ x, x ∈ pushed ↔ h.Live x) ∧ stats.markedObjects = pushed.length ∧
      ∀ k, k < h.space.granules → (live.isMarked (h.space.address k) = true ↔ h.Live (h.space.address k)) := by
  have hholds {x : Address} (hx : P x) : h.live.Holds x := by
    obtain ⟨t, ht, -, rfl, -⟩ := hc.tile x hx
    exact holds_address hs hf (hs.first_lt ht)
  have hmarked : ∀ a, h.live.isMarked a = false := fun a => hblank _
  have hmem : ∀ x ∈ h.rootTargets, x ≠ 0 → P x := by
    intro x hx hne
    obtain ⟨r, hr', hload⟩ := mem_rootTargets.1 hx
    obtain ⟨a, ha, hP⟩ := hr r hr'
    rw [hload] at ha
    cases ha
    exact hP.resolve_left hne
  have hsize : h.live.covered.byteSize / h.live.granuleBytes ≤ h.live.mapWords * mapWordBits := by
    rw [hf.covered, hf.bit_bytes, Region.byteSize, hs.stop_eq, Space.address, Nat.add_sub_cancel_left,
      Nat.mul_div_cancel _ hs.granuleBytes_pos]
    exact hf.map_words
  have hload : ∀ r ∈ h.roots.enumerate threadRoots,
      ∃ a, r.load h.encoding = .ok a ∧ (a = 0 ∨ a ∈ h.rootTargets ∧ h.live.Holds a) := by
    intro r hr'
    rcases mem_enumerate.1 hr' with ⟨src, hsrc, hx⟩ | ⟨a, ha, rfl⟩
    · have hroot : r ∈ h.rootReferences := List.mem_append_left _ (List.mem_flatMap.2 ⟨src, hsrc, hx⟩)
      obtain ⟨a, ha, hP⟩ := hr r hroot
      exact ⟨a, ha, hP.imp_right fun hP => ⟨mem_rootTargets.2 ⟨r, hroot, ha⟩, hholds hP⟩⟩
    · obtain ⟨hne, m, hm, r, hr', hload⟩ := (hroots a).1 ha
      have htarget : a ∈ h.rootTargets :=
        mem_rootTargets.2 ⟨r, List.mem_append_right _ (List.mem_flatMap.2 ⟨m, hm, hr'⟩), hload⟩
      exact ⟨a, rfl, .inr ⟨htarget, hholds (hmem a htarget hne)⟩⟩
  have htargets : ∀ a ∈ h.rootTargets, a ≠ 0 → ∃ r ∈ h.roots.enumerate threadRoots, r.load h.encoding = .ok a := by
    intro a ha hne
    obtain ⟨r, hr', hload⟩ := mem_rootTargets.1 ha
    rcases List.mem_append.1 hr' with hr' | hr'
    · obtain ⟨src, hsrc, hx⟩ := List.mem_flatMap.1 hr'
      exact ⟨r, mem_enumerate.2 (.inl ⟨src, hsrc, hx⟩), hload⟩
    · obtain ⟨m, hm, hx⟩ := List.mem_flatMap.1 hr'
      exact ⟨.wide a, mem_enumerate.2 (.inr ⟨a, (hroots a).2 ⟨hne, m, hm, r, hx, hload⟩, rfl⟩), rfl⟩
  have htraceable : Marker.Traceable h.live h.memory h.encoding h.rootTargets := by
    intro x hx sl hsl
    have hP : P x := hr.of_live hc ((found_iff_reachable hmarked x).1 hx)
    obtain ⟨a, ha, hPa⟩ := hc.slots x hP sl hsl
    exact ⟨a, ha, hPa.imp_right hholds⟩
  obtain ⟨stats, live, pushed, hrun, hframe, hbits, hnd, hfound, hhold, hcount, -⟩ :=
    Marker.run_spec hsize hload htargets htraceable
  have hfound' (x : Address) : x ∈ pushed ↔ h.Live x := (hfound x).trans (found_iff_reachable hmarked x)
  refine ⟨stats, live, pushed, ?_, hframe, hnd, hfound', hcount, ?_⟩
  · unfold markLive
    rw [run_bind_of_ok (EStateM.run_get h), hrun]
    rfl
  · intro k hk
    rw [← hfound', Bitmap.isMarked, hbits, hblank]
    constructor
    · rintro (hf | ⟨x, hx, hbit⟩)
      · cases hf
      · rw [hframe.bitOf] at hbit
        exact (hhold x hx).eq_of_bitOf (holds_address hs hf hk) hbit ▸ hx
    · exact fun hx => .inr ⟨_, hx, (hframe.bitOf _).symm⟩

/-! ## The cycle -/

/-- **What a completed cycle leaves**: the live objects with all their words, and nothing else but free words. -/
structure Collected (h : Heap) (ts : List Tile) (h' : Heap) (ts' : List Tile) (stats : CycleStats) : Prop where
  mapped : Mapped h'.space h'.memory h'.tlabs ts'
  frame : h.SameFrame h'
  mutators : h'.mutators = h.mutators
  issued : h'.nextMutator = h.nextMutator
  registered : h'.tlabs.registered = h.tlabs.registered
  refills : ∀ id, (h'.tlabs.get id).refills = (h.tlabs.get id).refills
  retired : ∀ id, (h'.tlabs.get id).isEmpty = true
  clean : ∀ t ∈ ts', t.kind = .free ∨ t.kind = .object
  live : ∀ t, t.kind = .object → (t ∈ ts' ↔ t ∈ ts ∧ h.Live (h.space.address t.first))
  kept : ∀ t ∈ ts', t.kind = .object → h.memory.SameOn h'.memory (h.space.wordAt t.first) (h.space.wordAt t.stop)
  collections : h'.collections = h.collections + 1
  lastCycle : h'.lastCycle = some stats
  marked : stats.markedObjects = (usedTiles ts').length
  liveWords : stats.liveWords = h.space.tileWords (usedTiles ts')
  reclaimed : stats.liveWords + stats.reclaimedWords = h.space.usedWords
  freeWords : stats.freeWords = h'.space.freeWords
  freeChunks : stats.freeChunks = h'.space.list.length
  waste : stats.tlabWasteWords = (h.tlabs.registered.map fun id => (h.tlabs.get id).freeWords).sum

theorem Collected.headed {h h' : Heap} {ts ts' : List Tile} {stats : CycleStats} {t : Tile}
    (c : Collected h ts h' ts' stats) (ht : t ∈ usedTiles ts') :
    t ∈ ts' ∧ t.kind = .object ∧ h'.space.Headed h'.memory t := by
  obtain ⟨hmem, hnot⟩ := mem_usedTiles.1 ht
  have hk : t.kind = .object := (c.clean t hmem).resolve_left hnot
  exact ⟨hmem, hk, c.mapped.headed t hmem hk⟩

theorem Collected.parsable {h h' : Heap} {ts ts' : List Tile} {stats : CycleStats} (c : Collected h ts h' ts' stats) :
    h'.space.Parsable h'.memory ts' := by
  intro t ht hnot
  exact (c.headed (mem_usedTiles.2 ⟨ht, hnot⟩)).2.2

theorem length_eq_of_tiles {s : Space} {ts us : List Tile} (hs : s.Tiled ts) (hus : us.Sublist ts) {objs : List Address}
    (hnd : objs.Nodup) (h : ∀ x, x ∈ objs ↔ ∃ t ∈ us, x = s.address t.first) : objs.length = us.length := by
  have hinj : (us.map fun t => s.address t.first).Nodup := by
    apply (hus.nodup hs.tiling.nodup).map_on
    intro t ht u hu he
    exact hs.tiling.eq_of_first (hus.subset ht) (hus.subset hu) (hs.address_inj.1 he)
  have hperm : objs.Perm (us.map fun t => s.address t.first) :=
    (List.perm_ext_iff_of_nodup hnd hinj).2 fun x => by
      rw [h, List.mem_map]
      exact exists_congr fun t => and_congr_right fun _ => eq_comm
  simpa using hperm.length_eq

/-- What the prologue leaves: every buffer is retired, the bitmap is blank, and no object has changed. -/
structure Prepared (h : Heap) (ts : List Tile) (h' : Heap) (ts' : List Tile) : Prop where
  mapped : Mapped h'.space h'.memory h'.tlabs ts'
  frame : h.SameFrame h'
  space : h'.space = h.space
  blank : ∀ i, h'.live.testBit i = false
  keeps : Keeps h.space h.memory ts h'.memory ts'
  clean : ∀ t ∈ ts', t.kind = .free ∨ t.kind = .object
  mutators : h'.mutators = h.mutators
  issued : h'.nextMutator = h.nextMutator
  registered : h'.tlabs.registered = h.tlabs.registered
  refills : ∀ id, (h'.tlabs.get id).refills = (h.tlabs.get id).refills
  retired : ∀ id, (h'.tlabs.get id).isEmpty = true
  collections : h'.collections = h.collections
  safepoint : h'.safepoint = h.safepoint

theorem prologue_eq {h : Heap} (hg : h.granted = true) :
    h.prologue = .ok ((h.tlabs.retireAll h.memory).1, { h with
      phase := .prologue
      live := { h.live with storage := { h.live.storage with committed := true }, words := .blank }
      memory := (h.tlabs.retireAll h.memory).2.1
      tlabs := (h.tlabs.retireAll h.memory).2.2 }) := by
  simp [prologue, Bitmap.commit, hg, bind, Except.bind, pure, Except.pure]

theorem prologue_spec {h : Heap} {ts : List Tile} (hm : Mapped h.space h.memory h.tlabs ts) (hset : Settled ts)
    (hg : h.granted = true) :
    ∃ h' ts', h.prologue = .ok ((h.tlabs.registered.map fun id => (h.tlabs.get id).freeWords).sum, h') ∧
      Prepared h ts h' ts' := by
  obtain ⟨memory, tlabs, hrun, hret⟩ := hm.retireAll
  refine ⟨_, ts.map (Tile.retired h.tlabs.registered), by rw [prologue_eq hg, hrun], ?_⟩
  exact ⟨hret.mapped, ⟨.refl _, rfl, rfl, rfl, rfl, rfl, rfl, rfl, rfl⟩, rfl, Bitmap.testBit_of_blank rfl, hret.keeps,
    hret.clean hset, rfl, rfl, hret.registered, hret.refills, hret.all_empty, rfl, rfl⟩

/-- A cycle whose bitmap cannot be committed is aborted at once. -/
theorem runCycle_refused {h : Heap} (hg : h.granted = false) (cause : Cause) (threadRoots : List Address) :
    (runCycle cause threadRoots).run h = .ok (.error (.cycleAborted "marking bitmap could not be committed"))
      ({ h with phase := .idle }.note (.cycleAborted cause (.commit h.live.storage.purpose h.live.storage.bytes))) := by
  have hpro : h.prologue = .error (.commit h.live.storage.purpose h.live.storage.bytes) := by
    simp [prologue, Bitmap.commit, hg, bind, Except.bind]
  unfold runCycle
  rw [run_bind_of_ok (EStateM.run_get _), hpro]
  rfl

namespace Prepared

variable {h h' : Heap} {ts ts' : List Tile} {P : Address → Prop}

theorem rootReferences (a : h.Prepared ts h' ts') : h'.rootReferences = h.rootReferences := by
  unfold Heap.rootReferences
  rw [a.frame.roots, a.mutators]

theorem rootTargets (a : h.Prepared ts h' ts') : h'.rootTargets = h.rootTargets := by
  unfold Heap.rootTargets
  rw [a.rootReferences, a.frame.encoding]

theorem rooted (a : h.Prepared ts h' ts') (hr : h.Rooted P) : h'.Rooted P := by
  unfold Rooted
  rw [a.rootReferences, a.frame.encoding]
  exact hr

theorem threadRoots (a : h.Prepared ts h' ts') {threadRoots : List Address} (hroots : h.ThreadRoots threadRoots) :
    h'.ThreadRoots threadRoots := by
  unfold ThreadRoots
  rw [a.mutators, a.frame.encoding]
  exact hroots

theorem closed (a : h.Prepared ts h' ts') (hs : h.space.Tiled ts) (hc : Closed h.space h.memory h.encoding ts P) :
    Closed h'.space h'.memory h'.encoding ts' P := by
  rw [a.frame.encoding]
  exact hc.keeps hs a.frame.grid (a.keeps.spares P)

theorem live_iff (a : h.Prepared ts h' ts') (hs : h.space.Tiled ts) (hc : Closed h.space h.memory h.encoding ts P)
    (hr : h.Rooted P) (x : Address) : h'.Live x ↔ h.Live x := by
  unfold Live
  rw [a.rootTargets, a.frame.encoding]
  exact reachable_congr (P := P) (fun x hx hne => hr.of_live hc (.root hx hne)) (fun x y hx hp => hc.pointsTo hx hp)
    (fun x y hx => hc.pointsTo_iff hs (a.keeps.spares P) hx y) x

theorem parsable (a : h.Prepared ts h' ts') : h'.space.Parsable h'.memory ts' := fun t ht hfree =>
  a.mapped.headed t ht ((a.clean t ht).resolve_left hfree)

theorem clean_merged (a : h.Prepared ts h' ts') (live : Bitmap) :
    ∀ t ∈ merged (h'.space.keeps live) none ts', t.kind = .free ∨ t.kind = .object := by
  intro t ht
  by_cases hfree : t.IsFree
  · exact .inl hfree
  · exact a.clean t ((mem_merged (fun _ => Space.not_isFree_of_keeps) hfree).1 ht).1

/-- **A sweep leaves a mapped heap**, whatever it keeps. -/
theorem sweep (a : h.Prepared ts h' ts') {space : Space} {live : Bitmap}
    (htiled : space.Tiled (merged (h'.space.keeps live) none ts')) (hgrid : h'.space.SameGrid space) :
    Mapped space h'.memory h'.tlabs (merged (h'.space.keeps live) none ts') := by
  refine ⟨htiled, ?_, ?_, ?_⟩
  · intro t ht hk
    have hfree : ¬t.IsFree := by rw [Tile.IsFree, hk]; decide
    exact hgrid.headed (a.mapped.headed t ((mem_merged (fun _ => Space.not_isFree_of_keeps) hfree).1 ht).1 hk)
  · apply a.mapped.buffers.congr hgrid
    intro id i n
    -- the prologue has retired every buffer, so no tile is a tail
    have hno {us : List Tile} (hus : ∀ t ∈ us, t.kind = .free ∨ t.kind = .object) : (⟨.tail id, i, n⟩ : Tile) ∉ us :=
      fun hu => by rcases hus _ hu with hk | hk <;> cases hk
    exact iff_of_false (hno (a.clean_merged live)) (hno a.clean)
  · intro t ht hfree hobject
    exact absurd (a.clean_merged live t ht) (not_or.2 ⟨hfree, hobject⟩)

/-- `live` marks the live objects. -/
def Marks (h : Heap) (live : Bitmap) : Prop :=
  ∀ k, k < h.space.granules → (live.isMarked (h.space.address k) = true ↔ h.Live (h.space.address k))

theorem keeps_iff (a : h.Prepared ts h' ts') {live : Bitmap} (hmarks : Marks h live) {t : Tile} (ht : t ∈ ts')
    (hk : t.kind = .object) : h'.space.keeps live t = true ↔ h.Live (h.space.address t.first) := by
  have hused : ¬t.IsFree := by rw [Tile.IsFree, hk]; decide
  have hlt : t.first < h.space.granules := a.space ▸ a.mapped.tiled.first_lt ht
  rw [a.space, Space.keeps, decide_eq_false hused, Bool.not_false, Bool.true_and, hmarks _ hlt]

/-- **What a sweep keeps of the objects is what is live of them.** -/
theorem mem_merged_iff (a : h.Prepared ts h' ts') (hc : Closed h.space h.memory h.encoding ts P) (hr : h.Rooted P)
    {live : Bitmap} (hmarks : Marks h live) {t : Tile} (hk : t.kind = .object) :
    t ∈ merged (h'.space.keeps live) none ts' ↔ t ∈ ts ∧ h.Live (h.space.address t.first) := by
  have hused : ¬t.IsFree := by rw [Tile.IsFree, hk]; decide
  rw [mem_merged (fun _ => Space.not_isFree_of_keeps) hused]
  constructor
  · rintro ⟨ht, hkeep⟩
    have hx := (a.keeps_iff hmarks ht hk).1 hkeep
    -- a live object lies in a tile from before the buffers were retired
    obtain ⟨u, hu, hku, he, -⟩ := hc.tile _ (hr.of_live hc hx)
    rw [← a.space] at he
    have hsame := a.mapped.tiled.tiling.eq_of_first ht (a.keeps u hu hku).1 (a.mapped.tiled.address_inj.1 he)
    exact ⟨hsame ▸ hu, hx⟩
  · rintro ⟨ht, hx⟩
    have ht' := (a.keeps t ht hk).1
    exact ⟨ht', (a.keeps_iff hmarks ht' hk).2 hx⟩

theorem length_keeps (a : h.Prepared ts h' ts') (hc : Closed h.space h.memory h.encoding ts P) (hr : h.Rooted P)
    {live : Bitmap} (hmarks : Marks h live) {objs : List Address} (hnd : objs.Nodup) (hobjs : ∀ x, x ∈ objs ↔ h.Live x) :
    objs.length = (ts'.filter (h'.space.keeps live)).length := by
  apply length_eq_of_tiles a.mapped.tiled List.filter_sublist hnd
  intro x
  rw [hobjs, a.space]
  constructor
  · intro hx
    obtain ⟨t, ht, hk, rfl, -⟩ := hc.tile x (hr.of_live hc hx)
    have ht' := (a.keeps t ht hk).1
    exact ⟨t, List.mem_filter.2 ⟨ht', a.space ▸ (a.keeps_iff hmarks ht' hk).2 hx⟩, rfl⟩
  · rintro ⟨t, ht, rfl⟩
    obtain ⟨ht, hkeep⟩ := List.mem_filter.1 ht
    rw [← a.space] at hkeep
    exact (a.keeps_iff hmarks ht ((a.clean t ht).resolve_left (Space.not_isFree_of_keeps hkeep))).1 hkeep

end Prepared

/-- **A cycle whose bitmap can be committed completes**, and leaves what is live. -/
theorem runCycle_spec {h : Heap} {ts : List Tile} {P : Address → Prop} (hm : Mapped h.space h.memory h.tlabs ts)
    (hset : Settled ts) (hf : h.Framed) (hc : Closed h.space h.memory h.encoding ts P) (hr : h.Rooted P)
    {threadRoots : List Address} (hroots : h.ThreadRoots threadRoots) (hg : h.granted = true) (cause : Cause) :
    ∃ h' ts' stats, (runCycle cause threadRoots).run h = .ok (.ok stats) h' ∧ Collected h ts h' ts' stats ∧
      h'.safepoint = h.safepoint := by
  obtain ⟨h1, ts1, hpro, hp⟩ := prologue_spec hm hset hg
  have htiled1 := hp.mapped.tiled
  obtain ⟨marked, live, pushed, hmark, hframe, hnd, hpushed, hcount, hmarked⟩ :=
    markLive_spec htiled1 (hp.frame.framed hf) hp.blank (hp.closed hm.tiled hc) (hp.rooted hr) (hp.threadRoots hroots)
  simp only [hp.live_iff hm.tiled hc hr] at hpushed hmarked
  have hmarks : Prepared.Marks h live := by rwa [hp.space] at hmarked
  obtain ⟨space, hsweep, htiled, hgrid⟩ := htiled1.sweep_spec hp.parsable live
  have hused : usedTiles (merged (h1.space.keeps live) none ts1) = ts1.filter (h1.space.keeps live) :=
    filter_merged (fun _ => Space.not_isFree_of_keeps) ts1 none (fun _ hr => by cases hr)
  have hwords := Space.tileWords_keeps_drops h1.space live ts1
  rw [← htiled1.usedWords_eq, hp.space] at hwords
  obtain ⟨stats, hstats⟩ : ∃ stats, stats = ({
    cause
    markedObjects := marked.markedObjects
    liveWords := h1.space.tileWords (ts1.filter (h1.space.keeps live))
    reclaimedWords := h1.space.tileWords (ts1.filter (h1.space.drops live))
    freeWords := space.freeWords
    freeChunks := space.list.length
    tlabWasteWords := (h.tlabs.registered.map fun id => (h.tlabs.get id).freeWords).sum } : CycleStats) := ⟨_, rfl⟩
  refine ⟨{ h1 with
    phase := .idle
    live := live.uncommit
    space
    collections := h1.collections + 1
    lastCycle := some stats
    log := h1.log.push (.cycleCompleted h1.collections stats) }, merged (h1.space.keeps live) none ts1, stats, ?_, ?_,
    hp.safepoint⟩
  · unfold runCycle sweepDead
    simp only [EStateM.run_bind, EStateM.run_get, hpro, EStateM.run_set, hmark, hsweep, run_lift_ok, EStateM.run_modify,
      EStateM.run_pure, epilogue, note, hstats]
  · constructor
    case mapped => exact hp.sweep htiled hgrid
    case frame => exact hp.frame.trans ⟨hgrid, hframe.1, hframe.2.1, hframe.2.2.1, rfl, rfl, rfl, rfl, rfl⟩
    case mutators => exact hp.mutators
    case issued => exact hp.issued
    case registered => exact hp.registered
    case refills => exact hp.refills
    case retired => exact hp.retired
    case clean => exact hp.clean_merged live
    case live => exact fun t hk => hp.mem_merged_iff hc hr hmarks hk
    case kept => exact fun t ht hk => (hp.keeps t ((hp.mem_merged_iff hc hr hmarks hk).1 ht).1 hk).2
    case collections => exact congrArg (· + 1) hp.collections
    case lastCycle => rfl
    case marked =>
      rw [hstats, hused, ← hp.length_keeps hc hr hmarks hnd hpushed]
      exact hcount
    case liveWords => rw [hstats, hused, hp.space]
    case reclaimed =>
      rw [hstats]
      simp only [hp.space] at hwords ⊢
      exact hwords
    case freeWords => rw [hstats]
    case freeChunks => rw [hstats]
    case waste => rw [hstats]

/-! ## Collections -/

/-- Only notes, the phase and the safepoint differ. -/
structure Untouched (h h' : Heap) : Prop where
  memory : h'.memory = h.memory
  space : h'.space = h.space
  tlabs : h'.tlabs = h.tlabs
  live : h'.live = h.live
  encoding : h'.encoding = h.encoding
  max_tlab : h'.maxTlabWords = h.maxTlabWords
  settings : h'.settings = h.settings
  roots : h'.roots = h.roots
  mutators : h'.mutators = h.mutators
  issued : h'.nextMutator = h.nextMutator
  collections : h'.collections = h.collections
  lastCycle : h'.lastCycle = h.lastCycle
  granted : h'.granted = h.granted

namespace Untouched

variable {h h' h'' : Heap} {ts : List Tile} {P : Address → Prop}

theorem refl (h : Heap) : h.Untouched h := ⟨rfl, rfl, rfl, rfl, rfl, rfl, rfl, rfl, rfl, rfl, rfl, rfl, rfl⟩

theorem frame (a : h.Untouched h') : h.SameFrame h' :=
  ⟨by rw [a.space]; exact .refl _, by rw [a.live], by rw [a.live], by rw [a.live], a.encoding, a.max_tlab, a.settings,
    a.roots, a.granted⟩

theorem sound (a : h.Untouched h') (hs : h.Sound ts) (hidle : h'.safepoint.Idle h.mutators.length) : h'.Sound ts :=
  ⟨by rw [a.space, a.memory, a.tlabs]; exact hs.mapped, a.frame.framed hs.framed,
    ⟨by rw [a.mutators]; exact hs.mutators.nodup, by rw [a.mutators, a.issued]; exact hs.mutators.issued⟩,
    by rw [a.mutators]; exact hidle, by rw [a.mutators]; exact hs.owners, by rw [a.mutators, a.tlabs]; exact hs.owned,
    by rw [a.mutators, a.frame.grid.2, a.frame.largestTlab]; exact hs.sizes⟩

end Untouched

theorem Collected.congr {h h' : Heap} {ts ts' : List Tile} {stats : CycleStats} {cause : Cause} {s s' : Safepoint}
    (a : Collected { h with cause, safepoint := s } ts h' ts' stats) :
    Collected h ts { h' with safepoint := s' } ts' stats :=
  ⟨a.mapped, ⟨a.frame.grid, a.frame.covered, a.frame.bit_bytes, a.frame.map_words, a.frame.encoding, a.frame.max_tlab,
      a.frame.settings, a.frame.roots, a.frame.granted⟩,
    a.mutators, a.issued, a.registered, a.refills, a.retired, a.clean, a.live, a.kept, a.collections, a.lastCycle,
    a.marked, a.liveWords, a.reclaimed, a.freeWords, a.freeChunks, a.waste⟩

theorem Collected.sound {h h' : Heap} {ts ts' : List Tile} {stats : CycleStats} (a : Collected h ts h' ts' stats)
    (hs : h.Sound ts) (hidle : h'.safepoint.Idle h.mutators.length) : h'.Sound ts' :=
  ⟨a.mapped, a.frame.framed hs.framed,
    ⟨by rw [a.mutators]; exact hs.mutators.nodup, by rw [a.mutators, a.issued]; exact hs.mutators.issued⟩,
    by rw [a.mutators]; exact hidle, by rw [a.mutators]; exact hs.owners, by
      rw [a.mutators, a.registered]
      exact hs.owned,
    by rw [a.mutators, a.frame.grid.2, a.frame.largestTlab]; exact hs.sizes⟩

theorem Rooted.loads {h : Heap} {P : Address → Prop} (hr : h.Rooted P) {m : Mutator} (hm : m ∈ h.mutators) :
    m.roots.Loads h.encoding := by
  intro r hr'
  obtain ⟨a, ha, -⟩ := hr r (List.mem_append_right _ (List.mem_flatMap.2 ⟨m, hm, hr'⟩))
  exact ⟨a, ha⟩

/-- **A collection completes whenever its bitmap can be committed**, and changes nothing otherwise. -/
theorem collectNow_spec {h : Heap} {ts : List Tile} {P : Address → Prop} (hs : h.Sound ts) (hset : Settled ts)
    (hc : Closed h.space h.memory h.encoding ts P) (hr : h.Rooted P) (id : Option MutatorId)
    (hid : ∀ i, id = some i → ∃ m ∈ h.mutators, m.id = i) (cause : Cause) :
    (∃ h' ts' stats, (collectNow id cause).run h = .ok (.ok stats) h' ∧ Collected h ts h' ts' stats ∧ h'.Sound ts') ∨
    (h.granted = false ∧ ∃ h' e, (collectNow id cause).run h = .ok (.error e) h' ∧ h.Untouched h' ∧ h'.Sound ts) := by
  obtain ⟨roots, s, r, hroots, hidle, -, hrun⟩ :=
    stopTheWorld_spec (h := { h with cause }) hs.idle ⟨hs.mutators.nodup, hs.mutators.issued⟩
      (fun m hm => hr.loads hm) id hid
  have hstart : (collectNow id cause).run h = (stopTheWorld id (runCycle cause)).run { h with cause } := by
    unfold collectNow
    rw [run_bind_of_ok (EStateM.run_modify _ h)]
  cases hg : h.granted with
  | true =>
    left
    obtain ⟨h', ts', stats, hcycle, hcol, hsafe⟩ :=
      runCycle_spec (h := { h with cause, safepoint := s }) (P := P) hs.mapped hset
        (hs.framed.congr rfl rfl rfl rfl) hc hr
        hroots hg cause
    have hcol' : Collected h ts { h' with safepoint := h'.safepoint.finish r } ts' stats := hcol.congr
    refine ⟨_, ts', stats, ?_, hcol', hcol'.sound hs ?_⟩
    · rw [hstart, hrun, hcycle]
    · rw [hsafe]
      exact hidle
  | false =>
    right
    have hun : h.Untouched { h with
        cause, safepoint := s.finish r, phase := .idle
        log := h.log.push (.cycleAborted cause (.commit h.live.storage.purpose h.live.storage.bytes)) } :=
      ⟨rfl, rfl, rfl, rfl, rfl, rfl, rfl, rfl, rfl, rfl, rfl, rfl, rfl⟩
    refine ⟨rfl, _, .cycleAborted "marking bitmap could not be committed", ?_, hun, hun.sound hs hidle⟩
    rw [hstart, hrun, runCycle_refused (h := { h with cause, safepoint := s }) hg]
    rfl

end Heap
end MarkSweep
