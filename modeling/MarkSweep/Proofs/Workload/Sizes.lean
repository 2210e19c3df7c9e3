import MarkSweep.Proofs.Heap.Sizes
import MarkSweep.Workload.CommandLine
/-!
# The driver answers sizes

The driver turns megabytes and kilobytes into bytes before anything checks them.  Where the bytes are 64-bit numbers, an
impossible size ends in a report and status 1; where they are not, the driver faults (`Command.sizes_answered`).
-/
namespace MarkSweep
namespace Workload

variable {o : Workload} {base : Address}

/-- The bytes of the heap, or those of a buffer, are no 64-bit number. -/
def Overflows (o : Workload) : Prop := addressLimit ≤ o.heapSize * 1024 * 1024 ∨ addressLimit ≤ o.tlabSize * 1024

/-- No heap can be made with these sizes: nothing to allocate in, or more than narrow references reach. -/
def Impossible (o : Workload) : Prop := o.heapSize = 0 ∨ o.tlabSize = 0 ∨ 65536 ≤ o.heapSize

/-- The sizes that the driver makes a heap with, in bytes. -/
def sizes (o : Workload) : Settings :=
  { Settings.standard with
    initialHeapSize := o.heapSize * 1024 * 1024, maxHeapSize := o.heapSize * 1024 * 1024, tlabSize := o.tlabSize * 1024 }

instance : Decidable o.Overflows := inferInstanceAs (Decidable (_ ∨ _))

instance : Decidable o.Impossible := inferInstanceAs (Decidable (_ ∨ _ ∨ _))

theorem settings_of_overflows (h : o.Overflows) : o.settings = .error .overflow := by
  unfold settings
  by_cases hkilo : o.heapSize * 1024 < addressLimit
  · rw [except_bind_of_ok (checkedMul_of_lt hkilo)]
    by_cases hheap : o.heapSize * 1024 * 1024 < addressLimit
    · rw [except_bind_of_ok (checkedMul_of_lt hheap),
        except_bind_of_error (checkedMul_of_le (h.resolve_left (Nat.not_le_of_lt hheap)))]
    · rw [except_bind_of_error (checkedMul_of_le (Nat.le_of_not_lt hheap))]
  · rw [except_bind_of_error (checkedMul_of_le (Nat.le_of_not_lt hkilo))]

theorem settings_of_not_overflows (h : ¬o.Overflows) : o.settings = .ok o.sizes := by
  obtain ⟨hheap, htlab⟩ := not_or.1 h
  have hheap := Nat.lt_of_not_le hheap
  have hkilo : o.heapSize * 1024 < addressLimit := Nat.lt_of_le_of_lt (Nat.le_mul_of_pos_right _ (by decide)) hheap
  unfold settings
  rw [except_bind_of_ok (checkedMul_of_lt hkilo), except_bind_of_ok (checkedMul_of_lt hheap),
    except_bind_of_ok (checkedMul_of_lt (Nat.lt_of_not_le htlab))]
  rfl

theorem sized (h : ¬o.Overflows) : o.sizes.Sized := by
  obtain ⟨hheap, htlab⟩ := not_or.1 h
  intro p hp
  simp only [Settings.sizes, sizes, Settings.standard, List.mem_cons, List.not_mem_nil, or_false] at hp
  unfold addressLimit at *
  rcases hp with rfl | rfl | rfl | rfl | rfl | rfl <;> simp only <;> omega

/-- The checks of the settings find what is impossible. -/
theorem problem?_sizes (o : Workload) : o.sizes.problem? = .ok (if o.heapSize = 0 ∨ o.tlabSize = 0 then some .zeroSize
    else if 65536 ≤ o.heapSize then some .maxAboveNarrowRange else none) := by
  have hbytes : o.sizes.granuleBytes = .ok 16 := rfl
  have hzero : o.sizes.maxHeapSize = 0 ∨ o.sizes.minTlabSize = 0 ∨ o.sizes.tlabSize = 0 ↔
      o.heapSize = 0 ∨ o.tlabSize = 0 := by
    simp only [sizes, Settings.standard]
    omega
  have hnarrow : narrowLimit - 1 ≤ o.sizes.maxHeapSize / 16 ↔ 65536 ≤ o.heapSize := by
    simp only [sizes, Settings.standard, narrowLimit]
    omega
  unfold Settings.problem?
  rw [except_bind_of_ok hbytes]
  simp only [hzero, hnarrow]
  by_cases hz : o.heapSize = 0 ∨ o.tlabSize = 0
  · rw [if_pos hz, if_pos hz]
  · have hpow : ¬isPowerOfTwo o.sizes.granuleWords = false := (by decide : ¬isPowerOfTwo 2 = false)
    have hpage : ¬pageBytes < 16 := by decide
    have hmin : ¬o.sizes.maxHeapSize < 16 := by
      simp only [sizes, Settings.standard]
      omega
    have hinit : ¬o.sizes.maxHeapSize < o.sizes.initialHeapSize := Nat.lt_irrefl _
    rw [if_neg hz, if_neg hz, if_neg hpow, if_neg hpage, if_neg hinit, if_neg hmin]
    split <;> rfl

theorem run_of_overflows (h : o.Overflows) : o.run base = ⟨faultExitCode, #[]⟩ := by
  unfold run tryRun
  rw [except_bind_of_error (settings_of_overflows h)]

theorem run_of_refused (h : ¬o.Overflows) {e : HeapError} (he : Heap.create o.sizes base true false = .error (.error e)) :
    o.run base = ⟨1, #[.heapFailed e]⟩ := by
  unfold run tryRun
  rw [except_bind_of_ok (settings_of_not_overflows h)]
  simp only [he]
  rfl

end Workload

/-- **Every size is answered, but for two products of sizes that nothing has bounded yet.**  A heap is made or refused
unless the bytes of its granule overflow, and what the checks refuse is refused before the system is asked for anything.
The driver reports an impossible size and ends with status 1 unless the bytes it asks for overflow. -/
theorem Command.sizes_answered {base : Address} (hbase : pageBytes ∣ base) (hpos : base ≠ 0) :
    (∀ settings : Settings, settings.Sized → ∀ granted hook available,
      ((∃ f, Heap.create settings base granted hook available = .error (.fault f)) ↔ settings.GranuleOverflows) ∧
      ∀ p, settings.problem? = .ok (some p) →
        ∀ base granted hook available, Heap.create settings base granted hook available = .error (.error p.toError)) ∧
    ∀ args o, Command.parse args = .run o →
      (o.Overflows → Command.execute args base = ⟨Workload.faultExitCode, #[]⟩) ∧
      (¬o.Overflows → o.Impossible → ∃ e, Command.execute args base = ⟨1, #[.heapFailed e]⟩) ∧
      (¬o.Overflows → ¬o.Impossible → ∃ h, Heap.create o.sizes base true false = .ok h) := by
  refine ⟨fun settings hs granted hook available =>
    ⟨?_, fun p hp base granted hook available => Heap.create_of_problem hp⟩, fun args o hparse => ?_⟩
  · exact Heap.create_faults_iff hs hbase hpos
  · have hrun : Command.execute args base = o.run base := by rw [Command.execute, hparse]
    have hproblem := o.problem?_sizes
    rw [hrun]
    refine ⟨Workload.run_of_overflows, fun hno himp => ?_, fun hno himp => ?_⟩
    · obtain ⟨p, hp⟩ : ∃ p, o.sizes.problem? = .ok (some p) := by
        rw [hproblem]
        split
        · exact ⟨_, rfl⟩
        next hz =>
        rw [if_pos ((or_assoc.2 himp).resolve_left hz)]
        exact ⟨_, rfl⟩
      exact ⟨_, Workload.run_of_refused hno (Heap.create_of_problem hp)⟩
    · obtain ⟨hz, hn⟩ := not_or.1 (mt or_assoc.1 himp)
      rw [if_neg hz, if_neg hn] at hproblem
      exact Heap.create_of_none (fun _ hlt => decide_eq_true hlt) (Workload.sized hno) hproblem hbase hpos true false

/-- Settings whose granule has `2 ^ 64` bytes. -/
def Settings.hugeGranule : Settings := { Settings.standard with granuleWords := 2305843009213693952 }

/-- A granule, and a number of megabytes, that end in a fault. -/
theorem Command.exists_unanswered :
    (∃ f, Heap.create Settings.hugeGranule 4096 true false = .error (.fault f)) ∧
    Command.execute ["--heap-size", "17592186044416"] 4096 = ⟨Workload.faultExitCode, #[]⟩ := by
  obtain ⟨hsettings, hdriver⟩ := @Command.sizes_answered 4096 (by decide) (by decide)
  have hparse : Command.parse ["--heap-size", "17592186044416"] =
      .run ⟨17592186044416, 64, 4, 1000000, 100, 1⟩ := by decide +kernel
  refine ⟨(hsettings _ (by decide) true false belowLimit).1.2 ⟨?_, ?_, ?_, ?_, ?_⟩, (hdriver _ _ hparse).1 (by decide)⟩ <;> decide

end MarkSweep
