import MarkSweep.Heap.Allocation
/-!
# Workload — threads that fill a heap with small linked objects

Each worker allocates objects one after another.  An object with an odd number refers to the one before it, and every
so many objects one is kept in a window of bounded size, so that most of what a worker allocates dies young.
`Workload.run` takes the workers one after the other, collects, and sums up.
-/
namespace MarkSweep

structure Workload where
  /-- Heap size in megabytes. -/
  heapSize : Nat
  /-- Buffer size in kilobytes. -/
  tlabSize : Nat
  threads : Nat
  objects : Nat
  /-- One in this many objects is kept; none at all if it is zero. -/
  keepEvery : Nat
  cycles : Nat
  deriving DecidableEq, Repr

inductive Report where
  | heap (n : Notice)
  | heapFailed (e : HeapError)
  | globalFailed (e : HeapError)
  | workerFailed (e : HeapError)
  | collectionFailed (e : HeapError)
  | summary (threads objects collections liveObjects usedBytes capacityBytes : Nat)
  | lastCycle (stats : CycleStats)
  deriving DecidableEq, Repr

namespace Report

def level : Report → Level
  | heap n => n.level
  | summary .. | lastCycle _ => .info
  | _ => .error

/-- The text of the line; `elapsed` is the time the run took, in seconds. -/
def message (elapsed : String) : Report → String
  | heap n => n.message
  | heapFailed e => s!"could not initialize heap: {e.message}"
  | globalFailed e => s!"could not allocate global object: {e.message}"
  | workerFailed e => s!"worker failed: {e.message}"
  | collectionFailed e => s!"explicit collection failed: {e.message}"
  | summary threads objects collections liveObjects usedBytes capacityBytes =>
    s!"{threads} threads x {objects} objects in {elapsed}s: {collections} collections, " ++
    s!"{liveObjects} objects on the heap, " ++
    s!"{Notice.kilobytes usedBytes}K used of {Notice.kilobytes capacityBytes}K"
  | lastCycle s => s!"last cycle: {s.describe}"

def line (elapsed : String) (r : Report) : String := s!"{r.level.name} {r.message elapsed}"

end Report

inductive WorkerProgress where
  | working
  | finished
  | failed (e : HeapError)
  deriving DecidableEq, Repr

/-- A worker between two objects.  Its mutator holds the window of kept objects, and behind it the object that the next
one will refer to. -/
structure Worker where
  mutator : MutatorId
  seed : UInt64
  made : Nat
  /-- The place in the window for the next object to keep. -/
  cursor : Nat
  progress : WorkerProgress
  deriving Repr

namespace Worker

def windowSize : Nat := 1024

def rootSlots : RootSlots := ⟨.replicate (windowSize + 1) 0, #[]⟩

def nextSeed (seed : UInt64) : UInt64 := seed * 6364136223846793005 + 1

def payloadWords (seed : UInt64) : Nat := (seed >>> 33).toNat % 8

/-- The root slots once object number `i` was allocated at `obj`: it is what the next object refers to if `i` is even,
and goes into the window if it is to be kept. -/
def remember (keepEvery i cursor : Nat) (obj : Address) (s : RootSlots) : RootSlots :=
  let wide := s.wide.setIfInBounds windowSize (if i % 2 = 0 then obj else 0)
  { s with wide := if keepEvery ≠ 0 ∧ i % keepEvery = 0 then wide.setIfInBounds cursor obj else wide }

/-- Allocates the next object, or ends the worker where none is left or the heap refuses. -/
def step (o : Workload) (w : Worker) : HeapM Worker := do
  match w.progress with
  | .finished | .failed _ => return w
  | .working =>
    if w.made = o.objects then
      Heap.dropMutator w.mutator
      return { w with progress := .finished }
    let seed := nextSeed w.seed
    let words := 2 + payloadWords seed
    match ← Heap.allocateFor w.mutator words with
    | .error e =>
      Heap.dropMutator w.mutator
      return { w with progress := .failed e }
    | .ok obj =>
      let previous := (← (← get).mutator w.mutator).roots.wide[windowSize]?.getD 0
      modify (·.format obj words 1)
      Heap.setRef obj 0 previous
      modify (·.updateRoots w.mutator (remember o.keepEvery w.made w.cursor obj))
      let kept := o.keepEvery ≠ 0 ∧ w.made % o.keepEvery = 0
      return { w with
        seed, made := w.made + 1
        cursor := if kept then (w.cursor + 1) % windowSize else w.cursor }

/-- Advances a worker by `n` objects, with no other thread at work. -/
def advance (o : Workload) : Nat → Worker → HeapM Worker
  | 0, w => return w
  | n + 1, w => do advance o n (← w.step o)

end Worker

structure WorkloadRun where
  heap : Heap
  workers : Array Worker
  reports : Array Report

namespace WorkloadRun

def onHeap {α : Type} (r : WorkloadRun) (op : HeapM α) : Except Fault (α × WorkloadRun) :=
  match op.run r.heap with
  | .ok a h => .ok (a, { r with heap := h })
  | .error f _ => .error f

def flush (r : WorkloadRun) : WorkloadRun :=
  { r with reports := r.reports ++ r.heap.log.map .heap, heap := { r.heap with log := #[] } }

def report (r : WorkloadRun) (line : Report) : WorkloadRun :=
  let r := r.flush
  { r with reports := r.reports.push line }

def hire (r : WorkloadRun) : (threads : Nat) → Except Fault WorkloadRun
  | 0 => .ok r
  | n + 1 => do
    let r ← r.hire n
    let (id, r) ← r.onHeap Heap.newMutator
    let w : Worker := { mutator := id, seed := UInt64.ofNat (n + 1), made := 0, cursor := 0, progress := .working }
    return { r with
      heap := r.heap.updateRoots id fun _ => Worker.rootSlots
      workers := r.workers.push w }

def advance (o : Workload) (n : Nat) (r : WorkloadRun) (i : Nat) : Except Fault WorkloadRun := do
  match r.workers[i]? with
  | none => return r
  | some w =>
    let (w, r) ← r.onHeap (w.advance o n)
    return { r with workers := r.workers.setIfInBounds i w }

def failures (r : WorkloadRun) : List HeapError :=
  r.workers.toList.filterMap fun w =>
    match w.progress with
    | .failed e => some e
    | _ => none

def collect : Nat → WorkloadRun → Except Fault WorkloadRun
  | 0, r => .ok r
  | n + 1, r => do
    let (result, r) ← r.onHeap (Heap.collect none .explicit)
    match result with
    | .ok _ => collect n r
    | .error e => collect n (r.report (.collectionFailed e))

def sumUp (o : Workload) (r : WorkloadRun) : Except Fault WorkloadRun := do
  let (objects, r) ← r.onHeap (Heap.iterate none)
  let h := r.heap
  let live := objects.countP fun a => !Object.isFiller h.memory a
  let r := r.report (.summary o.threads o.objects h.collections live h.used h.capacity)
  match h.lastCycle with
  | none => return r
  | some s => return r.report (.lastCycle s)

end WorkloadRun

structure RunOutcome where
  exitCode : Nat
  reports : Array Report

namespace Workload

/-- The status of a run that was stopped by a fault. -/
def faultExitCode : Nat := 101

/-- The sizes a heap for the workload is made with. -/
def settings (o : Workload) : Except Fault Settings := do
  let heapBytes ← checkedMul (← checkedMul o.heapSize 1024) 1024
  return { Settings.standard with
    initialHeapSize := heapBytes, maxHeapSize := heapBytes, tlabSize := ← checkedMul o.tlabSize 1024 }

/-- Words of the object that a global handle keeps for the whole run. -/
def globalWords : Nat := 5

/-- Allocates one object and makes a global handle keep it. -/
def keepGlobal : HeapM (Except HeapError Unit) := do
  let table ← modifyGet fun h =>
    let (table, roots) := h.roots.newTable
    (table, { h with roots := roots.registerTable .globalHandles table })
  match ← Heap.allocate globalWords with
  | .error e => return .error e
  | .ok obj =>
    modify fun h =>
      let h := h.format obj globalWords 0
      { h with roots := (h.roots.push table obj).2 }
    return .ok ()

/-- Everything after the workers are done: failures, collections and the summary. -/
def close (o : Workload) (r : WorkloadRun) : Except Fault RunOutcome := do
  let failures := r.failures
  let r := failures.foldl (fun r e => r.report (.workerFailed e)) r
  let r ← r.collect o.cycles
  let r ← r.sumUp o
  return { exitCode := if failures.isEmpty then 0 else 1, reports := r.flush.reports }

/-- The run on a heap at `base`, with the reports of one that no fault stops. -/
def tryRun (o : Workload) (base : Address) : Except Fault RunOutcome := do
  let settings ← o.settings
  match Heap.create settings base true false with
  | .error (.fault f) => throw f
  | .error (.error e) => return { exitCode := 1, reports := #[.heapFailed e] }
  | .ok heap =>
    match ← ({ heap, workers := #[], reports := #[] } : WorkloadRun).onHeap keepGlobal with
    | (.error e, r) => return { exitCode := 1, reports := (r.report (.globalFailed e)).reports }
    | (.ok (), r) =>
      let r ← r.hire o.threads
      let r ← (List.range o.threads).foldlM (·.advance o (o.objects + 1)) r
      o.close r

/-- Runs the workload on a heap at `base`, one worker after the other. -/
def run (o : Workload) (base : Address) : RunOutcome :=
  match o.tryRun base with
  | .ok outcome => outcome
  | .error _ => { exitCode := faultExitCode, reports := #[] }

end Workload

end MarkSweep
