import MarkSweep.Proofs.Heap.Requests
import MarkSweep.Proofs.Workload.Opening
/-!
# How a workload ends

Once no mutator is left, the one handle leads to the global object alone, and an explicit cycle frees everything else
(`Stocked.collect`).  So after one cycle at least the summary counts one object, whatever the workers did before.
-/
namespace MarkSweep

/-- The free tile behind the only one in use. -/
theorem freeTiles_of_used {ts : List Tile} {kind : TileKind} {k n : Nat} (ht : Tiling 0 ts n) (hs : Separated ts)
    (hused : usedTiles ts = [⟨kind, 0, k⟩]) (hlt : k < n) : freeTiles ts = [⟨.free, k, n - k⟩] := by
  have hmem : (⟨kind, 0, k⟩ : Tile) ∈ usedTiles ts := by rw [hused]; exact List.mem_singleton_self _
  obtain ⟨hmem, hnot⟩ := mem_usedTiles.1 hmem
  match ts, ht, hs with
  | [], ht, _ => cases hmem
  | u :: rest, ht, hs =>
    obtain rfl : u = ⟨kind, 0, k⟩ := ht.eq_of_first List.mem_cons_self hmem ht.1
    have hrest : ∀ v ∈ rest, v.IsFree := by
      unfold usedTiles at hused
      rw [List.filter_cons_of_pos (by simpa using hnot), List.cons.injEq, List.filter_eq_nil_iff] at hused
      simpa using hused.2
    have htail : Tiling (0 + k) rest n := ht.2.2
    rw [Nat.zero_add] at htail
    rw [freeTiles_cons_of_not hnot]
    match rest, htail, hs, hrest with
    | [], htail, _, _ => exact absurd htail (Nat.ne_of_lt hlt)
    | [⟨vkind, first, count⟩], htail, _, hrest =>
      obtain ⟨rfl, -, hstop⟩ := htail
      obtain rfl : vkind = .free := hrest _ (List.mem_singleton_self _)
      have hcount : n - first = count := by
        have : first + count = n := hstop
        omega
      rw [hcount]
      rfl
    | v :: v' :: rest, _, hs, hrest =>
      exact absurd ⟨hrest v (by simp), hrest v' (by simp)⟩
        ((separated_cons.1 (separated_cons.1 hs).2).1 v' rfl)

/-- A tile that has all the words of its list is the only one. -/
theorem Space.eq_singleton_of_tileWords {s : Space} (hg : 0 < s.granuleWords) {us : List Tile} {t : Tile} (ht : t ∈ us)
    (hpos : ∀ u ∈ us, 0 < u.count) (hwords : s.tileWords us = t.count * s.granuleWords) : us = [t] := by
  have hnil {vs : List Tile} (hvs : ∀ u ∈ vs, u ∈ us) (hzero : s.tileWords vs = 0) : vs = [] := by
    cases vs with
    | nil => rfl
    | cons v vs =>
      rw [Space.tileWords_cons] at hzero
      have := Nat.mul_pos (hpos v (hvs v List.mem_cons_self)) hg
      omega
  obtain ⟨pre, post, rfl⟩ := List.append_of_mem ht
  have hsum : s.tileWords (pre ++ t :: post) = s.tileWords pre + (t.count * s.granuleWords + s.tileWords post) := by
    unfold Space.tileWords
    rw [List.map_append, List.sum_append, List.map_cons, List.sum_cons]
  rw [hsum] at hwords
  have hpre : pre = [] := hnil (fun u hu => by simp [hu]) (by omega)
  have hpost : post = [] := hnil (fun u hu => by simp [hu]) (by omega)
  rw [hpre, hpost]
  rfl

namespace Heap

variable {h : Heap} {ts : List Tile} {P : Address → Prop}

/-- The tile of the global object. -/
def globalTile : Tile := ⟨.object, 0, 3⟩

/-- **The global object is all that the heap holds**: one free chunk has all other words. -/
structure Cleared (h : Heap) : Prop where
  objects : h.space.objects h.memory = .ok [h.low]
  header : Object.header h.memory h.low = ⟨Workload.globalWords, 0, 0⟩
  used : h.space.usedWords = 6
  chunks : h.chunks = [⟨h.low + 6 * wordBytes, h.space.region.wordSize - 6⟩]

namespace Stocked

theorem globalTile_mem (a : h.Stocked ts P) : globalTile ∈ ts := by
  obtain ⟨t, ht, hkind, haddress, -⟩ := a.closed.tile _ a.mem_low
  have hfirst : t.first = 0 := by
    rw [low_eq, a.sound.mapped.tiled.address_inj] at haddress
    exact haddress.symm
  have hcount : t.count = 3 := by
    have hhead := a.sound.mapped.headed t ht hkind
    unfold Space.Headed Object.size Space.granulesFor at hhead
    rw [← haddress, a.header, a.furnished.granule] at hhead
    exact hhead.symm
  have he : t = globalTile := by
    obtain ⟨kind, first, count⟩ := t
    exact congr (congr (congrArg Tile.mk hkind) hfirst) hcount
  exact he ▸ ht

/-- With no mutator, only the global object is live. -/
theorem eq_low_of_live (a : h.Stocked ts P) (hm : h.mutators = []) {x : Address} (hx : h.Live x) : x = h.low := by
  induction hx with
  | root hmem hne =>
    obtain ⟨r, hr, hload⟩ := mem_rootTargets.1 hmem
    rcases mem_rootReferences.1 hr with ⟨s, hsrc, hr⟩ | ⟨m, hm', -⟩
    · rw [a.furnished.roots] at hsrc hr
      obtain rfl := List.mem_singleton.1 hsrc
      obtain rfl : r = .wide h.low := by simpa [Roots.references, Roots.table, oneRoot] using hr
      cases hload
      rfl
    · rw [hm] at hm'
      cases hm'
  | step _ hp ih =>
    subst ih
    exact absurd hp (a.leaf_low _)

/-- **An explicit cycle frees everything but the global object.** -/
theorem collect (a : h.Stocked ts P) (hm : h.mutators = []) : ∃ h' ts' P', (Heap.collect none .explicit).run h =
    .ok (.ok ()) h' ∧ h'.Stocked ts' P' ∧ h'.mutators = [] ∧ h'.Cleared ∧ h'.low = h.low := by
  obtain ⟨h', ts', stats, hrun, hcol, hs'⟩ := (collectNow_spec a.sound a.settled a.closed a.rooted none
    (fun _ hi => by cases hi) .explicit).resolve_right (by rw [a.furnished.granted]; rintro ⟨⟨⟩, -⟩)
  obtain ⟨P', a', -, -⟩ := a.pass (.inr ⟨stats, hrun, hcol⟩) hs' hcol.settled
  have htiled := a'.sound.mapped.tiled
  have hgranule := a'.furnished.granule
  have hmem := a'.globalTile_mem
  have hused : usedTiles ts' = [globalTile] := by
    refine List.perm_singleton.1 ((List.perm_ext_iff_of_nodup (htiled.tiling.nodup.filter _) (List.nodup_singleton _)).2 ?_)
    intro u
    rw [← usedTiles, mem_usedTiles, List.mem_singleton]
    constructor
    · rintro ⟨hu, hnot⟩
      have hk := (hcol.clean u hu).resolve_left hnot
      have hlive := a.eq_low_of_live hm ((hcol.live u hk).1 hu).2
      rw [low_eq, a.sound.mapped.tiled.address_inj] at hlive
      exact htiled.tiling.eq_of_first hu hmem hlive
    · rintro rfl
      exact ⟨hmem, by rintro ⟨⟩⟩
  have hroom : 3 < h'.space.granules := by
    have := a'.furnished.room
    have := htiled.wordSize_eq
    rw [hgranule] at this
    omega
  refine ⟨h', ts', P', ?_, a', hcol.mutators.trans hm, ⟨?_, a'.header, ?_, ?_⟩, ?_⟩
  · unfold Heap.collect
    simp only
    rw [run_bind_of_ok hrun]
    rfl
  · rw [htiled.objects_eq hcol.parsable, hused, low_eq]
    rfl
  · rw [htiled.usedWords_eq, hused, Space.tileWords_cons, hgranule]
    rfl
  · have hchunks : h'.chunks = (freeTiles ts').map h'.space.chunk := htiled.list.chunks
    have haddress : h'.space.address 3 = h'.low + 6 * wordBytes := by
      rw [← Nat.zero_add 3, ← Space.address_add_words, hgranule, low_eq]
    rw [hchunks, freeTiles_of_used htiled.tiling htiled.separated hused hroom, List.map_singleton, Space.chunk, hgranule,
      haddress, htiled.wordSize_eq, hgranule, Nat.sub_mul]
  · rw [low, low, hcol.frame.grid.1]

/-- A walk over a cleared heap finds the global object. -/
theorem iterate (a : h.Stocked ts P) (hc : h.Cleared) : ∃ h', (Heap.iterate none).run h = .ok [h.low] h' ∧
    h'.space = h.space ∧ h'.collections = h.collections ∧
    Object.header h'.memory h.low = ⟨Workload.globalWords, 0, 0⟩ := by
  obtain ⟨h', ts', hrun, hs', hset', hcar, hspace, -, -, hms, -⟩ :=
    iterate_spec a.sound a.settled a.rooted fun i (hi : (none : Option MutatorId) = some i) => by cases hi
  obtain ⟨a', -⟩ := a.carry hs' hset' hcar fun m hm => a.loads (hms ▸ hm)
  have htiled := a'.sound.mapped.tiled
  have hused : usedTiles ts' = [globalTile] := by
    refine Space.eq_singleton_of_tileWords htiled.granule_pos
      (mem_usedTiles.2 ⟨a'.globalTile_mem, by rintro ⟨⟩⟩) (fun u hu => htiled.count_pos (mem_usedTiles.1 hu).1) ?_
    rw [← htiled.usedWords_eq, ← hspace, hc.used, a.furnished.granule]
    rfl
  refine ⟨h', ?_, hspace.symm, hcar.collections, ?_⟩
  · rw [hrun, hused, low_eq]
    rfl
  · rw [low, hspace]
    exact a'.header

/-- The log is no part of what the invariant speaks of. -/
theorem relog (a : h.Stocked ts P) (log : Array Notice) : ({ h with log } : Heap).Stocked ts P := by
  have hf := a.furnished
  exact ⟨a.sound.aside _ _ log, a.settled, ⟨hf.granted, hf.granule, hf.max_tlab, hf.max_tlab_pos, hf.min_tlab, hf.room,
    hf.roots⟩, a.closed, a.rooted, a.shallow, a.header⟩

end Stocked
end Heap

open Heap

/-! ## The last collections and the summary -/

namespace WorkloadRun

variable {o : Workload} {r : WorkloadRun} {ts : List Tile} {P : Address → Prop}

/-- The failures are reported before the last collections. -/
def reportFailures (r : WorkloadRun) : WorkloadRun := r.failures.foldl (fun r e => r.report (.workerFailed e)) r

/-- Reports change nothing but the log of the heap. -/
theorem exists_reportFailures (r : WorkloadRun) :
    ∃ log reports, r.reportFailures = { r with heap := { r.heap with log }, reports } := by
  unfold reportFailures
  generalize r.failures = failures
  induction failures generalizing r with
  | nil => exact ⟨_, _, rfl⟩
  | cons e failures ih =>
    obtain ⟨log, reports, he⟩ := ih (r.report (.workerFailed e))
    exact ⟨log, reports, he⟩

/-- **Explicit cycles leave the global object alone.** -/
theorem collect_spec (a : r.heap.Stocked ts P) (hm : r.heap.mutators = []) (n : Nat) : ∃ r' ts' P',
    collect n r = .ok r' ∧ r'.heap.Stocked ts' P' ∧ r'.heap.low = r.heap.low ∧ (0 < n → r'.heap.Cleared) := by
  induction n generalizing r ts P with
  | zero => exact ⟨r, ts, P, rfl, a, rfl, fun h => absurd h (Nat.lt_irrefl 0)⟩
  | succ n ih =>
    obtain ⟨h₁, ts₁, P₁, hrun, a₁, hm₁, hcleared, hlow⟩ := a.collect hm
    obtain ⟨r', ts', P', hrest, a', hlow', hn⟩ := ih (r := { r with heap := h₁ }) a₁ hm₁
    refine ⟨r', ts', P', ?_, a', hlow'.trans hlow, fun _ => ?_⟩
    · unfold collect onHeap
      rw [hrun]
      exact hrest
    · cases n with
      | zero =>
        cases hrest
        exact hcleared
      | succ n => exact hn (Nat.succ_pos n)

/-- **The summary of a cleared heap** counts one object of six words. -/
theorem sumUp_spec (a : r.heap.Stocked ts P) (hc : r.heap.Cleared) (o : Workload) : ∃ r', r.sumUp o = .ok r' ∧
    Report.summary o.threads o.objects r.heap.collections 1 (6 * wordBytes) r.heap.capacity ∈ r'.reports := by
  obtain ⟨h', hrun, hspace, hcollections, hheader⟩ := a.iterate hc
  have hone : [r.heap.low].countP (fun x => !Object.isFiller h'.memory x) = 1 := by
    have : Object.isFiller h'.memory r.heap.low = false := by
      unfold Object.isFiller
      rw [hheader]
      decide
    rw [List.countP_singleton, this]
    rfl
  have hused : h'.used = 6 * wordBytes := by rw [Heap.used, hspace, hc.used]
  have hcapacity : h'.capacity = r.heap.capacity := by rw [Heap.capacity, Heap.capacity, hspace]
  unfold sumUp onHeap
  rw [hrun]
  simp only [bind, Except.bind, hone, hused, hcapacity, hcollections]
  split
  · exact ⟨_, rfl, Array.mem_push_self⟩
  · refine ⟨_, rfl, ?_⟩
    unfold report flush
    simp

end WorkloadRun

namespace Crew

variable {o : Workload} {c : Crew} {ts : List Tile} {P : Address → Prop}

/-- When all workers have ended, no mutator is left. -/
theorem Inv.mutators_eq_nil (hi : c.Inv ts P) (hdone : c.Done o) : c.run.heap.mutators = [] := by
  refine List.eq_nil_iff_forall_not_mem.2 fun m hm => ?_
  obtain ⟨i, w, hw, hwork, -⟩ := hi.staffed m hm
  exact hdone.2 w (Array.mem_of_getElem? hw) hwork

end Crew
end MarkSweep
