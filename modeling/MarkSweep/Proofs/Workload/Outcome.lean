import MarkSweep.Proofs.Workload.Closing
import MarkSweep.Proofs.Workload.Turns
/-!
# What a workload comes to

However its workers are interleaved, each of them holds few objects at any time, and once all have ended, the last
collection leaves the heap with its global object alone (`Reached.leaves_global`).
-/
namespace MarkSweep

open Heap

namespace Crew

variable {o : Workload} {c : Crew} {ts : List Tile} {P : Address → Prop}

/-- The objects that what a worker holds leads to. -/
def retained (c : Crew) (w : Worker) : Set Address :=
  {x | Reachable c.run.heap.memory c.run.heap.encoding (Reference.targets c.run.heap.encoding (c.run.held w)) x}

theorem retained_of_nil {w : Worker} (h : c.run.held w = []) : c.retained w = ∅ := by
  refine Set.eq_empty_iff_forall_notMem.2 fun x hx => ?_
  unfold retained at hx
  rw [h] at hx
  change Reachable _ _ [] x at hx
  induction hx with
  | root hmem => cases hmem
  | step _ _ ih => exact ih

/-- A mutator belongs to one worker, which is at work. -/
theorem Inv.holds_of_mutator (hi : c.Inv ts P) {i : Nat} {w : Worker} (hw : c.run.workers[i]? = some w) {m : Mutator}
    (hm : m ∈ c.run.heap.mutators) (hid : m.id = w.mutator) :
    w.HoldsAt c.run.heap.memory c.run.heap.encoding m.roots (c.stage i) := by
  obtain ⟨j, v, hv, hwork, hvid⟩ := hi.staffed m hm
  obtain rfl := hi.listed.distinct j i v w hv hw (hvid.trans hid)
  obtain rfl : v = w := Option.some.inj (hv.symm.trans hw)
  obtain ⟨m', hm', hid', hholds⟩ := hi.employed j v hv hwork
  obtain rfl : m' = m := List.inj_on_of_nodup_map hi.stocked.sound.mutators.nodup hm' hm (hid'.trans hid.symm)
  exact hholds

/-- **A worker retains few objects**, however many it has made. -/
theorem Inv.retains (hi : c.Inv ts P) {w : Worker} (hw : w ∈ c.run.workers) :
    (c.run.held w).length ≤ Worker.windowSize + 1 ∧ (c.retained w).encard ≤ 2 * Worker.windowSize + 1 := by
  obtain ⟨i, hlt, rfl⟩ := Array.mem_iff_getElem.1 hw
  have hworker := Array.getElem?_eq_getElem hlt
  by_cases hnil : c.run.held c.run.workers[i] = []
  · rw [retained_of_nil hnil, hnil, Set.encard_empty]
    exact ⟨Nat.zero_le _, zero_le⟩
  cases hm : c.run.heap.mutator? c.run.workers[i].mutator with
  | none => exact absurd (by rw [WorkloadRun.held, hm]) hnil
  | some m =>
    have hheld : c.run.held c.run.workers[i] = m.roots.references := by rw [WorkloadRun.held, hm]
    obtain ⟨hmem, hid⟩ := mutator_eq_ok (by rw [Heap.mutator, hm])
    have hholds := hi.holds_of_mutator hworker hmem hid
    have hstage : (c.stage i).Holds := by
      cases hstage : c.stage i with
      | leaving p =>
        rw [hstage] at hholds
        exact hnil (by rw [hheld, hholds.2]; rfl)
      | _ => trivial
    have hwindow := (Worker.holdsAt_iff hstage).1 hholds
    constructor
    · rw [hheld, RootSlots.references, hwindow.narrow, List.length_append, List.length_map]
      exact Nat.le_of_eq hwindow.size
    · unfold retained
      rw [hheld]
      exact hwindow.encard_le fun a ha => (hi.stocked.wide_cases hmem ha).imp_right (hi.stocked.shallow a)

/-- What closing a run comes to: the last collections leave `r`, and the run ends with `outcome`. -/
structure Closes (o : Workload) (c : Crew) (r : WorkloadRun) (outcome : RunOutcome) : Prop where
  collected : WorkloadRun.collect o.cycles c.run.reportFailures = .ok r
  low : r.heap.low = c.run.heap.low
  cleared : r.heap.Cleared
  closed : o.close c.run = .ok outcome
  summary : Report.summary o.threads o.objects r.heap.collections 1 (6 * wordBytes) r.heap.capacity ∈ outcome.reports
  failed : outcome.exitCode = 1 ↔ ∃ w ∈ c.run.workers, ∃ e, w.progress = .failed e
  status : outcome.exitCode = 0 ∨ outcome.exitCode = 1

theorem mem_failures {r : WorkloadRun} {e : HeapError} : e ∈ r.failures ↔ ∃ w ∈ r.workers, w.progress = .failed e := by
  unfold WorkloadRun.failures
  rw [List.mem_filterMap]
  refine exists_congr fun w => and_congr Array.mem_toList_iff ?_
  cases w.progress <;> simp

/-- **Closing a run whose workers have all ended** succeeds, and leaves the global object alone. -/
theorem Inv.closes (hi : c.Inv ts P) (hdone : c.Done o) (hcycles : 0 < o.cycles) : ∃ r outcome, c.Closes o r outcome := by
  obtain ⟨log, reports, hreport⟩ := c.run.exists_reportFailures
  have a := hi.stocked.relog log
  obtain ⟨r, ts', P', hcollect, a', hlow, hcleared⟩ := WorkloadRun.collect_spec (r := c.run.reportFailures)
    (by rw [hreport]; exact a) (by rw [hreport]; exact hi.mutators_eq_nil hdone) o.cycles
  obtain ⟨r', hsum, hmem⟩ := WorkloadRun.sumUp_spec a' (hcleared hcycles) o
  refine ⟨r, { exitCode := if c.run.failures.isEmpty then 0 else 1, reports := r'.flush.reports }, hcollect, ?_,
    hcleared hcycles, ?_, ?_, ?_, ?_⟩
  · rw [hlow, hreport]
    rfl
  · unfold Workload.close
    unfold WorkloadRun.reportFailures at hcollect
    simp only [hcollect, hsum, bind, Except.bind]
    rfl
  · exact Array.mem_append_left _ hmem
  · constructor
    · intro hone
      obtain ⟨e, he⟩ := List.exists_mem_of_ne_nil c.run.failures fun hnil => by simp [hnil] at hone
      obtain ⟨w, hw, hfailed⟩ := mem_failures.1 he
      exact ⟨w, hw, e, hfailed⟩
    · rintro ⟨w, hw, e, hfailed⟩
      have he := List.ne_nil_of_mem (mem_failures.2 ⟨w, hw, hfailed⟩)
      simp [he]
  · simp only
    split
    · exact .inl rfl
    · exact .inr rfl

/-- **A workload leaves exactly its global object.**  At any time, in any interleaving, a worker holds its window and one
more object at most, and retains few objects; a worker can be hired, and none ever faults.  And once all of them have ended,
the last explicit cycle leaves one object at the low end of the heap and one free chunk behind it; the status tells whether a
worker failed. -/
theorem Reached.leaves_global (hc : Reached o c) :
    (∀ w ∈ c.run.workers, (c.run.held w).length ≤ Worker.windowSize + 1 ∧
      (c.retained w).encard ≤ 2 * Worker.windowSize + 1) ∧
    (∃ r, c.run.hireNext = .ok r) ∧
    (∀ (i : Nat) (w : Worker), c.run.workers[i]? = some w →
      ∃ w' stage h, (w.act o (c.stage i)).run c.run.heap = .ok (w', stage) h) ∧
    (c.Done o → 0 < o.cycles → ∃ r outcome, c.Closes o r outcome) := by
  obtain ⟨ts, P, hi⟩ := hc.inv
  obtain ⟨r, -, hhire, -⟩ := hi.hire
  refine ⟨fun w hw => hi.retains hw, ⟨r, hhire⟩, fun i w hw => ?_, fun hdone hcycles => hi.closes hdone hcycles⟩
  obtain ⟨w', stage, h', -, -, hrun, -⟩ := hi.act o hw
  exact ⟨w', stage, h', hrun⟩

/-- Two workers that make three objects each in a heap of one megabyte. -/
def small : Workload := { heapSize := 1, tlabSize := 4, threads := 2, objects := 3, keepEvery := 1, cycles := 1 }

/-- A run of two workers that ends as it should. -/
theorem exists_closed : ∃ c r outcome, Reached small c ∧ c.Done small ∧ 0 < small.cycles ∧ c.run.workers.size = 2 ∧
    (∀ w ∈ c.run.workers, (c.retained w).encard ≤ 2 * Worker.windowSize + 1) ∧ c.Closes small r outcome := by
  have hrun : (match small.settings with
      | .ok settings => match Heap.create settings 4096 true false with
        | .ok h => decide (h.high < addressLimit)
        | .error _ => false
      | .error _ => false) = true := by decide +kernel
  split at hrun
  case h_2 => cases hrun
  next settings sizes =>
  split at hrun
  case h_2 => cases hrun
  next h hcreate =>
  obtain ⟨c, hc, hdone, -⟩ := tryRun_eq sizes hcreate (by decide) (by decide) (of_decide_eq_true hrun)
  obtain ⟨hretains, -, -, hcloses⟩ := hc.leaves_global
  obtain ⟨r, outcome, hclosed⟩ := hcloses hdone (by decide)
  exact ⟨c, r, outcome, hc, hdone, by decide, hdone.1, fun w hw => (hretains w hw).2, hclosed⟩

end Crew
end MarkSweep
