import MarkSweep.Heap
/-!
# Collection — stopping the world, and one mark-sweep cycle

`stopTheWorld` runs an operation while every mutator is stopped; a cycle and a walk over all objects are such
operations.  A cycle whose bitmap cannot be committed is aborted before it changes anything.
-/
namespace MarkSweep
namespace Heap

/-- How mutator `id`, or an external thread, asks for an operation. -/
def requester (h : Heap) (id : Option MutatorId) : Except Fault Requester :=
  match id with
  | none => .ok .external
  | some id => do return .mutator (← (← h.mutator id).roots.snapshot h.encoding)

def parkOthers (h : Heap) (id : Option MutatorId) (s : Safepoint) : Except Fault Safepoint :=
  (h.mutators.filter fun m => some m.id != id).foldlM (fun s m => do s.arrive (← m.roots.snapshot h.encoding)) s

/-- Runs `op` with every mutator stopped.  All mutators but the requester park with their roots; `op` gets the roots
of all of them and of the requester. -/
def stopTheWorld {α : Type} (id : Option MutatorId) (op : List Address → HeapM α) : HeapM α := do
  let h ← get
  let r ← h.requester id
  let (raised, s) ← h.safepoint.request r
  if !raised then
    throw .wouldBlock
  match (← h.parkOthers id s).begin? with
  | none => throw .wouldBlock
  | some (roots, s) =>
    set { h with safepoint := s }
    let a ← op roots
    modify fun h => { h with safepoint := h.safepoint.finish r }
    return a

/-! ## The cycle -/

/-- Commits the liveness bitmap and retires every buffer.  Gives the words that the buffers did not grant. -/
def prologue (h : Heap) : Except HeapError (Nat × Heap) := do
  let live ← h.live.commit h.granted
  let (waste, memory, tlabs) := h.tlabs.retireAll h.memory
  return (waste, { h with phase := .prologue, live, memory, tlabs })

/-- Marks what the registered roots and the given roots of stopped threads lead to. -/
def markLive (threadRoots : List Address) : HeapM MarkStats := do
  let h ← get
  let (stats, live) := Marker.run h.live h.memory h.encoding (h.roots.enumerate threadRoots)
  set { h with phase := .marking, live }
  stats

/-- Makes the free list anew from what is not marked.  A fault leaves it as far as it was made. -/
def sweepDead : HeapM SweepStats := do
  let h ← get
  let (stats, space) := h.space.sweep h.memory h.live
  set { h with phase := .sweeping, space }
  stats

def epilogue (h : Heap) : Heap := { h with phase := .idle, live := h.live.uncommit }

/-- Runs one cycle.  The world has to be stopped. -/
def runCycle (cause : Cause) (threadRoots : List Address) : HeapM (Except HeapError CycleStats) := do
  let h ← get
  match h.prologue with
  | .error e =>
    set ({ h with phase := .idle }.note (.cycleAborted cause e))
    return .error (.cycleAborted "marking bitmap could not be committed")
  | .ok (waste, h) =>
    set h
    let marked ← markLive threadRoots
    let swept ← sweepDead
    modify epilogue
    let stats : CycleStats :=
      { cause
        markedObjects := marked.markedObjects
        liveWords := swept.liveWords
        reclaimedWords := swept.reclaimedWords
        freeWords := swept.freeWords
        freeChunks := swept.freeChunks
        tlabWasteWords := waste }
    modify fun h =>
      { h with collections := h.collections + 1, lastCycle := some stats }.note (.cycleCompleted h.collections stats)
    return .ok stats

/-! ## Requests -/

def collectNow (id : Option MutatorId) (cause : Cause) : HeapM (Except HeapError CycleStats) := do
  modify ({ · with cause })
  stopTheWorld id (runCycle cause)

/-- Asks for a collection.  Only an allocation failure and an explicit request make a cycle run; a request for the sake
of metadata is passed on to the hook, and any other one is ignored. -/
def collect (id : Option MutatorId) (cause : Cause) : HeapM (Except HeapError Unit) := do
  match cause with
  | .allocationFailure | .explicit =>
    return (← collectNow id cause).map fun _ => ()
  | .metadataThreshold | .metadataClearSoftRefs =>
    modify fun h =>
      let h := h.note (.requestHandled cause)
      if h.hasMetadataHook then { h with hookCalls := h.hookCalls + 1 } else h
    return .ok ()
  | .noGc | .heapInspection | .heapDump =>
    modify (·.note (.requestIgnored cause))
    return .ok ()

def collectFull : HeapM (Except HeapError Unit) := do
  collect none (← get).cause

/-- All mutators ask for a cycle at the same time: one of them runs it, and the others are stopped for it.  Gives the
number of mutators whose request did not fail, which the one that ran an aborted cycle misses. -/
def collectTogether (cause : Cause) : HeapM Nat := do
  match (← get).mutators with
  | [] => return 0
  | leader :: parked =>
    let r ← collectNow (some leader.id) cause
    return parked.length + (if r.isOk then 1 else 0)

/-- The starts of all objects in address order, fillers among them.  The buffers are retired for it. -/
def iterate (id : Option MutatorId) : HeapM (List Address) :=
  stopTheWorld id fun _ => do
    let h ← get
    let (_, memory, tlabs) := h.tlabs.retireAll h.memory
    let h := { h with memory, tlabs }
    set h
    h.space.objects h.memory

end Heap
end MarkSweep
