import MarkSweep.Proofs.Heap.Owners
import MarkSweep.Workload
/-!
# Crews — the workers of a workload, in any interleaving

`Worker.act` is what a worker does between two points where others can get in its way: it takes words from the free list
at most once, stops the world at most once, and touches nothing else that it shares.  A `Crew` is a run with the place
where every worker stands in its next allocation, `Step` advances any one of its workers by an act or starts another, and
`Reached` is any order of any number of steps.
-/
namespace MarkSweep

/-- Where a worker stands in its next allocation. -/
inductive Stage where
  /-- It asks its buffer. -/
  | ready
  /-- It asks for a new buffer, for the first time or again after a collection. -/
  | refilling (again : Bool)
  /-- It asks the free list for words of their own. -/
  | carving (again : Bool)
  /-- It found no words, and asks for a collection. -/
  | starved
  /-- It holds nothing any more, and ends its mutator. -/
  | leaving (progress : WorkerProgress)

namespace Worker

/-- The words of the next object. -/
def words (w : Worker) : Nat := 2 + payloadWords (nextSeed w.seed)

/-- The object that the next one will refer to. -/
def previous (s : RootSlots) : Address := s.wide[windowSize]?.getD 0

/-- Whether the next object goes into the window. -/
def keeps (o : Workload) (w : Worker) : Prop := o.keepEvery ≠ 0 ∧ w.made % o.keepEvery = 0

instance (o : Workload) (w : Worker) : Decidable (w.keeps o) := inferInstanceAs (Decidable (_ ∧ _))

/-- The worker once its next object is made. -/
def grown (o : Workload) (w : Worker) : Worker :=
  { w with
    seed := nextSeed w.seed, made := w.made + 1
    cursor := if w.keeps o then (w.cursor + 1) % windowSize else w.cursor }

theorem mutator_grown (o : Workload) (w : Worker) : (w.grown o).mutator = w.mutator := by
  unfold grown
  rfl

theorem progress_grown (o : Workload) (w : Worker) : (w.grown o).progress = w.progress := by
  unfold grown
  rfl

/-- Makes the next object of words that were granted. -/
def make (o : Workload) (w : Worker) (obj : Address) : HeapM (Worker × Stage) := do
  let before := previous (← (← get).mutator w.mutator).roots
  modify (·.format obj w.words 1)
  Heap.setRef obj 0 before
  modify (·.updateRoots w.mutator (remember o.keepEvery w.made w.cursor obj))
  return (w.grown o, .ready)

/-- Gives up what the worker holds. -/
def leave (w : Worker) (p : WorkerProgress) : HeapM (Worker × Stage) := do
  modify (·.updateRoots w.mutator fun _ => .empty)
  return (w, .leaving p)

def act (o : Workload) (w : Worker) : Stage → HeapM (Worker × Stage)
  | .ready => do
    match w.progress with
    | .finished | .failed _ => return (w, .ready)
    | .working =>
      if w.made = o.objects then
        w.leave .finished
      else if !(← get).space.canFit w.words then
        w.leave (.failed (.outOfMemory w.words))
      else
        let m ← (← get).mutator w.mutator
        let words ← (← get).adjust w.words
        match ← modifyGet (·.bump m.tlab words) with
        | some obj => w.make o obj
        | none => return (w, .refilling false)
  | .refilling again => do
    let m ← (← get).mutator w.mutator
    let words ← (← get).adjust w.words
    match ← Heap.refill m words with
    | some obj => w.make o obj
    | none => return (w, .carving again)
  | .carving again => do
    let words ← (← get).adjust w.words
    match ← Heap.carve words with
    | some obj => w.make o obj
    | none => if again then w.leave (.failed (.outOfMemory words)) else return (w, .starved)
  | .starved => do
    Heap.collectForAllocation (some w.mutator)
    return (w, .refilling true)
  | .leaving p => do
    Heap.dropMutator w.mutator
    return ({ w with progress := p }, .ready)

end Worker

namespace WorkloadRun

/-- Starts one more worker. -/
def hireNext (r : WorkloadRun) : Except Fault WorkloadRun := do
  let (id, s) ← r.onHeap Heap.newMutator
  let w : Worker :=
    { mutator := id, seed := UInt64.ofNat (r.workers.size + 1), made := 0, cursor := 0, progress := .working }
  return { s with
    heap := s.heap.updateRoots id fun _ => Worker.rootSlots
    workers := s.workers.push w }

/-- What a worker holds: its window and the object behind it, or nothing once its mutator has ended. -/
def held (r : WorkloadRun) (w : Worker) : List Reference :=
  match r.heap.mutator? w.mutator with
  | some m => m.roots.references
  | none => []

end WorkloadRun

/-- A run, and where each of its workers stands. -/
structure Crew where
  run : WorkloadRun
  stage : Nat → Stage

namespace Crew

/-- No worker is in the middle of an allocation. -/
def ready (r : WorkloadRun) : Crew := ⟨r, fun _ => .ready⟩

/-- An act left worker `i` as `w` at `stage`. -/
def acted (c : Crew) (i : Nat) (w : Worker) (stage : Stage) (h : Heap) : Crew :=
  { run := { c.run with heap := h, workers := c.run.workers.setIfInBounds i w }
    stage := Function.update c.stage i stage }

/-- One worker advances, or one more starts. -/
inductive Step (o : Workload) (c : Crew) : Crew → Prop
  | hire {r : WorkloadRun} (more : c.run.workers.size < o.threads) (run : c.run.hireNext = .ok r) :
      Step o c { c with run := r }
  | act {i : Nat} {w w' : Worker} {stage : Stage} {h : Heap} (worker : c.run.workers[i]? = some w)
      (run : (w.act o (c.stage i)).run c.run.heap = .ok (w', stage) h) : Step o c (c.acted i w' stage h)
  /-- The world was stopped for another worker just then, and the request is lost. -/
  | excused {i : Nat} {w : Worker} (worker : c.run.workers[i]? = some w) (starved : c.stage i = .starved) :
      Step o c (c.acted i w (.refilling true) c.run.heap)

/-- What a workload reaches once its heap is made and its global object allocated. -/
inductive Reached (o : Workload) : Crew → Prop
  | start {settings : Settings} {base : Address} {h : Heap} {r : WorkloadRun} (sizes : o.settings = .ok settings)
      (run : Heap.create settings base true false = .ok h) (page : pageBytes ∣ base) (base_ne : base ≠ 0)
      (high : h.high < addressLimit)
      (kept : (⟨h, #[], #[]⟩ : WorkloadRun).onHeap Workload.keepGlobal = .ok (.ok (), r)) : Reached o (ready r)
  | step {c c' : Crew} (reached : Reached o c) (next : Step o c c') : Reached o c'

/-- All workers were started, and have ended. -/
def Done (o : Workload) (c : Crew) : Prop :=
  c.run.workers.size = o.threads ∧ ∀ w ∈ c.run.workers, w.progress ≠ .working

end Crew
end MarkSweep
