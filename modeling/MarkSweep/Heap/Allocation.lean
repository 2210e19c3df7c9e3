import MarkSweep.Heap.Collection
/-!
# Allocation — chunks, buffers and mutators

Every allocation tries the free list, asks for one collection where it has no chunk, and tries once more.  What is
handed out can be stepped over from the start: a chunk is filled before it is given away, and a buffer covers the
words it did not grant when it is retired.
-/
namespace MarkSweep
namespace Heap

def carve (words : Nat) : HeapM (Option Address) := do
  let h ← get
  let (a, space) ← h.space.allocate words
  set { h with space }
  return a

/-- A collection for an allocation that found no chunk.  Its failure leaves the free list as it was. -/
def collectForAllocation (id : Option MutatorId) : HeapM Unit := do
  let _ ← collectNow id .allocationFailure

/-- Carves a chunk, after a collection where that is needed.  What could not fit into the empty heap is refused at
once. -/
def carveOrCollect (words : Nat) : HeapM (Except HeapError Address) := do
  if !(← get).space.canFit words then
    return .error (.outOfMemory words)
  match ← carve words with
  | some a => return .ok a
  | none =>
    collectForAllocation none
    match ← carve words with
    | some a => return .ok a
    | none => return .error (.outOfMemory (← (← get).adjust words))

def fill (h : Heap) (a : Address) (words : Nat) : Heap := { h with memory := Object.fill h.memory a words }

/-- Allocates `words` words for an external thread.  They come as a filler, over which the caller formats its object. -/
def allocate (words : Nat) : HeapM (Except HeapError Address) := do
  match ← carveOrCollect words with
  | .error e => return .error e
  | .ok a =>
    let adjusted ← (← get).adjust words
    modify (·.fill a adjusted)
    return .ok a

/-! ## Buffers -/

def bump (h : Heap) (id : TlabId) (words : Nat) : Option Address × Heap :=
  match (h.tlabs.get id).allocate words with
  | none => (none, h)
  | some (a, t) => (some a, { h with tlabs := h.tlabs.set id t })

def retireTlab (h : Heap) (id : TlabId) : Heap :=
  let (_, memory, tlabs) := h.tlabs.retire h.memory id
  { h with memory, tlabs }

def installTlab (h : Heap) (id : TlabId) (start : Address) (words : Nat) : Heap :=
  { h with tlabs := h.tlabs.set id ((h.tlabs.get id).install start words) }

/-- A buffer for an external thread.  Every collection retires it. -/
def newTlab (minWords requestedWords : Nat) : HeapM (Except HeapError TlabId) := do
  let words ← (← get).tlabSizeFor minWords requestedWords
  match ← carveOrCollect words with
  | .error e => return .error e
  | .ok start =>
    modifyGet fun h =>
      let (id, tlabs) := h.tlabs.register
      (.ok id, { h with tlabs }.installTlab id start words)

/-- Grants words of an external thread's buffer, as a filler; nothing where the buffer is full or was retired. -/
def allocateIn (id : TlabId) (words : Nat) : HeapM (Option Address) := do
  if !(← get).space.canFit words then
    return none
  let words ← (← get).adjust words
  modifyGet fun h =>
    match h.bump id words with
    | (none, h) => (none, h)
    | (some a, h) => (some a, h.fill a words)

/-- Retires an external thread's buffer for good. -/
def dropTlab (h : Heap) (id : TlabId) : Heap :=
  let h := h.retireTlab id
  { h with tlabs := h.tlabs.unregister id }

/-! ## Mutators -/

def newMutator : HeapM MutatorId := do
  let h ← get
  match h.safepoint.register with
  | none => throw .wouldBlock
  | some safepoint =>
    let (tlab, tlabs) := h.tlabs.register
    let minWords ← h.adjust (h.settings.minTlabSize / wordBytes)
    let tlabWords ← h.tlabSizeFor (min minWords h.maxTlabWords) (h.settings.tlabSize / wordBytes)
    let m : Mutator :=
      { id := h.nextMutator, tlab, tlabWords
        refillWasteLimit := tlabWords / tlabRefillWasteFraction
        roots := .empty }
    set { h with safepoint, tlabs, mutators := h.mutators ++ [m], nextMutator := h.nextMutator + 1 }
    return m.id

/-- Gives the mutator a new buffer where the words left in the old one are few enough to give up; carves the words
themselves otherwise. -/
def refillOrCarve (m : Mutator) (words : Nat) : HeapM (Option Address) := do
  if words ≤ m.tlabWords ∧ ((← get).tlabs.get m.tlab).freeWords ≤ m.refillWasteLimit then
    let size ← (← get).tlabSizeFor words m.tlabWords
    match ← carve size with
    | some start => modifyGet fun h => ((h.retireTlab m.tlab).installTlab m.tlab start size).bump m.tlab words
    | none => carve words
  else
    carve words

/-- Allocates `words` words for a mutator, which formats its object there before it asks for anything else. -/
def allocateFor (id : MutatorId) (words : Nat) : HeapM (Except HeapError Address) := do
  let m ← (← get).mutator id
  if !(← get).space.canFit words then
    return .error (.outOfMemory words)
  let words ← (← get).adjust words
  match ← modifyGet (·.bump m.tlab words) with
  | some a => return .ok a
  | none =>
    match ← refillOrCarve m words with
    | some a => return .ok a
    | none =>
      collectForAllocation (some id)
      match ← refillOrCarve m words with
      | some a => return .ok a
      | none => return .error (.outOfMemory words)

/-- Ends a mutator: its buffer is retired, and its references count no more. -/
def dropMutator (id : MutatorId) : HeapM Unit := do
  let m ← (← get).mutator id
  modify (·.retireTlab m.tlab)
  let h ← get
  let safepoint ← h.safepoint.unregister
  set { h with safepoint, tlabs := h.tlabs.unregister m.tlab, mutators := h.mutators.filter (·.id != id) }

end Heap
end MarkSweep
