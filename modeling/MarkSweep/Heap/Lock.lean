import MarkSweep.Heap.Allocation
/-!
# The heap lock — which sections exclude each other

A cycle and a walk hold the heap lock from their start to their end, and so does an external thread while it carves a chunk
and makes use of it, or gives a buffer up.  Mutators need no lock: they are stopped while a cycle or a walk runs.

`Guarded` is a heap with its lock, and every operation that takes the lock is here once more with its locked sections.  A
section that finds the lock taken waits for another thread; one that ends, be it with a fault, lets the lock go.
-/
namespace MarkSweep

structure Guarded where
  heap : Heap
  locked : Bool

abbrev GuardedM := EStateM Fault Guarded

namespace Heap

/-- Gets every mutator to park with its roots: gives the requester, the roots of all stopped threads, and the safepoint
while the operation runs. -/
def halt (h : Heap) (id : Option MutatorId) : Except Fault (Requester × List Address × Safepoint) := do
  let r ← h.requester id
  let (raised, s) ← h.safepoint.request r
  if !raised then
    throw .wouldBlock
  match (← h.parkOthers id s).begin? with
  | none => throw .wouldBlock
  | some (roots, s) => return (r, roots, s)

def stop (id : Option MutatorId) : HeapM (Requester × List Address) := do
  let h ← get
  let (r, roots, s) ← h.halt id
  set { h with safepoint := s }
  return (r, roots)

def resume (r : Requester) : HeapM Unit := modify fun h => { h with safepoint := h.safepoint.finish r }

/-- The walk of `iterate`.  The world has to be stopped. -/
def visit : HeapM (List Address) := do
  let h ← get
  let (_, memory, tlabs) := h.tlabs.retireAll h.memory
  let h := { h with memory, tlabs }
  set h
  h.space.objects h.memory

/-- Fills a chunk for the caller, who formats an object over it. -/
def fillClaimed (words : Nat) (a : Address) : HeapM Address := do
  let adjusted ← (← get).adjust words
  modify (·.fill a adjusted)
  return a

/-- Makes a buffer of a chunk. -/
def installNew (words : Nat) (start : Address) : HeapM TlabId := modifyGet fun h =>
  let (id, tlabs) := h.tlabs.register
  (id, { h with tlabs }.installTlab id start words)

/-- Carves a chunk and makes use of it. -/
def claim {α : Type} (words : Nat) (use : Address → HeapM α) : HeapM (Option α) := do
  match ← carve words with
  | none => return none
  | some a => return some (← use a)

end Heap

namespace Guarded

variable {α : Type}

def unlocked (op : HeapM α) : GuardedM α := fun g =>
  match op.run g.heap with
  | .ok a heap => .ok a { g with heap }
  | .error f heap => .error f { g with heap }

/-- Runs `op` with the lock held. -/
def locking (op : HeapM α) : GuardedM α := do
  if (← get).locked then
    throw .wouldBlock
  set { ← get with locked := true }
  try
    unlocked op
  finally
    modify ({ · with locked := false })

def stopTheWorld (id : Option MutatorId) (op : List Address → HeapM α) : GuardedM α := do
  let (r, roots) ← unlocked (Heap.stop id)
  let a ← locking (op roots)
  unlocked (Heap.resume r)
  return a

def iterate (id : Option MutatorId) : GuardedM (List Address) := stopTheWorld id fun _ => Heap.visit

/-! ## Collections -/

def collectNow (id : Option MutatorId) (cause : Cause) : GuardedM (Except HeapError CycleStats) := do
  unlocked (modify ({ · with cause }))
  stopTheWorld id (Heap.runCycle cause)

def collect (id : Option MutatorId) (cause : Cause) : GuardedM (Except HeapError Unit) := do
  match cause with
  | .allocationFailure | .explicit =>
    return (← collectNow id cause).map fun _ => ()
  | cause => unlocked (Heap.collect id cause)

def collectFull : GuardedM (Except HeapError Unit) := do
  collect none (← get).heap.cause

def collectTogether (cause : Cause) : GuardedM Nat := do
  match (← get).heap.mutators with
  | [] => return 0
  | leader :: parked =>
    let r ← collectNow (some leader.id) cause
    return parked.length + (if r.isOk then 1 else 0)

/-! ## Allocations -/

/-- Tries a locked section that claims words, runs one cycle without the lock where it finds none, and tries once
more. -/
def claimOrCollect (words : Nat) (use : Address → HeapM α) : GuardedM (Except HeapError α) := do
  if !(← get).heap.space.canFit words then
    return .error (.outOfMemory words)
  match ← locking (Heap.claim words use) with
  | some a => return .ok a
  | none =>
    let _ ← collectNow none .allocationFailure
    match ← locking (Heap.claim words use) with
    | some a => return .ok a
    | none => return .error (.outOfMemory (← (← get).heap.adjust words))

def allocate (words : Nat) : GuardedM (Except HeapError Address) := claimOrCollect words (Heap.fillClaimed words)

def newTlab (minWords requestedWords : Nat) : GuardedM (Except HeapError TlabId) := do
  let words ← (← get).heap.tlabSizeFor minWords requestedWords
  claimOrCollect words (Heap.installNew words)

def dropTlab (id : TlabId) : GuardedM Unit := locking (modify (·.dropTlab id))

/-- The allocation of a mutator, which takes the lock for nothing but the cycle it asks for. -/
def allocateFor (id : MutatorId) (words : Nat) : GuardedM (Except HeapError Address) := do
  let m ← (← get).heap.mutator id
  if !(← get).heap.space.canFit words then
    return .error (.outOfMemory words)
  let words ← (← get).heap.adjust words
  match ← unlocked (modifyGet (·.bump m.tlab words)) with
  | some a => return .ok a
  | none =>
    match ← unlocked (Heap.refillOrCarve m words) with
    | some a => return .ok a
    | none =>
      let _ ← collectNow (some id) .allocationFailure
      match ← unlocked (Heap.refillOrCarve m words) with
      | some a => return .ok a
      | none => return .error (.outOfMemory words)

end Guarded
end MarkSweep
