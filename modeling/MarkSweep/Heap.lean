import MarkSweep.Marking
import MarkSweep.Heap.Notice
import MarkSweep.Safepoint
import MarkSweep.Heap.Settings
import MarkSweep.Space.Sweep
import MarkSweep.Heap.Tlab
/-!
# Heap — one region of objects, its free list, its mutators and its roots

A heap commits all its memory when it is made and never grows.  This module has its state, its creation, the questions
that change nothing, and `HeapM`, the form of every operation that can stop halfway; allocation and collection are in
modules of their own.
-/
namespace MarkSweep

abbrev MutatorId := Nat

/-- A thread that allocates in a buffer of its own and stops when a collection asks for it. -/
structure Mutator where
  id : MutatorId
  tlab : TlabId
  tlabWords : Nat
  /-- It gives a buffer up for a new one only with at most this many words left. -/
  refillWasteLimit : Nat
  roots : RootSlots
  deriving Repr

structure Heap where
  settings : Settings
  reservedBytes : Nat
  memory : Memory
  space : Space
  /-- The liveness bitmap, committed for the time of a collection only. -/
  live : Bitmap
  encoding : NarrowEncoding
  maxTlabWords : Nat
  roots : Roots
  tlabs : TlabRegistry
  mutators : List Mutator
  nextMutator : MutatorId
  safepoint : Safepoint
  phase : Phase
  /-- The cause of the current or the latest request for a collection. -/
  cause : Cause
  collections : Nat
  lastCycle : Option CycleStats
  /-- Whether requests for the sake of metadata are passed on. -/
  hasMetadataHook : Bool
  hookCalls : Nat
  /-- Whether the system grants memory at present. -/
  granted : Bool
  log : Array Notice

/-- A buffer gives way to a new one once its free words are down to this fraction of its size. -/
def tlabRefillWasteFraction : Nat := 64

namespace Heap

/-- Makes a heap whose region starts at `base`, which is a page start other than null. -/
def create (settings : Settings) (base : Address) (granted hasMetadataHook : Bool)
    (available : Nat → Bool := belowLimit) : Except Failure Heap := do
  settings.validate
  let raised := settings.raisesMaxTlab
  let settings ← settings.resolve
  let granuleBytes ← settings.granuleBytes
  let reservation ← Reservation.reserve base settings.maxHeapSize available
  let committed ← CommittedSpace.create reservation granted settings.maxHeapSize
  let region := committed.region
  let live ← Bitmap.covering region granuleBytes "marking bitmap" available
  let space ← Space.create region settings.granuleWords granted available
  let maxTlabWords := min (← alignUp (settings.maxTlabSize / wordBytes) settings.granuleWords) region.wordSize
  -- one granule below the region, so that its first object has a narrow reference
  let encoding : NarrowEncoding := ⟨← checkedSub region.start granuleBytes, granuleBytes.log2⟩
  let raisedNotice := if raised then #[.maxTlabRaised settings.minTlabSize] else #[]
  return {
    settings
    reservedBytes := reservation.size
    memory := committed.reservation.memory
    space, live, encoding, maxTlabWords
    roots := .empty
    tlabs := .empty
    mutators := []
    nextMutator := 0
    safepoint := .initial
    phase := .idle
    cause := .noGc
    collections := 0
    lastCycle := none
    hasMetadataHook
    hookCalls := 0
    granted
    log := raisedNotice.push
      (.started settings.initialHeapSize settings.maxHeapSize region.start maxTlabWords granuleBytes) }

/-! ## Questions -/

def name : String := "MSweep"

def low (h : Heap) : Address := h.space.region.start

def high (h : Heap) : Address := h.space.region.stop

def freeWords (h : Heap) : Nat := h.space.freeWords

/-- Bytes that are not on the free list, buffers in use among them. -/
def used (h : Heap) : Nat := h.space.usedWords * wordBytes

def capacity (h : Heap) : Nat := h.space.region.byteSize

def maxCapacity (h : Heap) : Nat := h.reservedBytes

def tlabCapacity (h : Heap) : Nat := h.capacity

def tlabUsed (h : Heap) : Nat := h.used

def isMaximalNoGc (h : Heap) : Bool := h.capacity ≤ h.used

def maxTlabBytes (h : Heap) : Nat := h.maxTlabWords * wordBytes

/-- Objects never move, so that every object is pinned. -/
def supportsPinning : Bool := true

def isIn (h : Heap) (a : Address) : Bool := h.space.isIn a

def isFree (h : Heap) (a : Address) : Bool := h.isIn a && h.space.isFreeChunk a

def chunks (h : Heap) : List Chunk := h.space.chunks

/-- `words` rounded up to whole granules, and never less than one. -/
def adjust (h : Heap) (words : Nat) : Except Fault Nat := h.space.adjust words

/-- The size of a buffer for a request: no more than the largest one, no less than `minWords`, in whole granules.  The
largest one has to hold `minWords` words. -/
def tlabSizeFor (h : Heap) (minWords requestedWords : Nat) : Except Fault Nat := do
  if h.maxTlabWords < minWords then
    throw (.aboveLargestTlab minWords)
  h.adjust (max (min requestedWords h.maxTlabWords) minWords)

def mutator? (h : Heap) (id : MutatorId) : Option Mutator := h.mutators.find? (·.id == id)

def mutator (h : Heap) (id : MutatorId) : Except Fault Mutator :=
  match h.mutator? id with
  | some m => .ok m
  | none => .error .notRegistered

def describe (h : Heap) : String :=
  s!"MSweepHeap(HeapInner \x7b settings: {h.settings.describe}, committed: {h.space.region.describe}, " ++
  s!"phase: {h.phase.name}, collections: {h.collections}, .. \x7d)"

/-! ## Notes and small changes -/

def note (h : Heap) (n : Notice) : Heap := { h with log := h.log.push n }

def updateRoots (h : Heap) (id : MutatorId) (f : RootSlots → RootSlots) : Heap :=
  { h with mutators := h.mutators.map fun m => if m.id = id then { m with roots := f m.roots } else m }

/-- Formats an object with `refs` null references over words that were granted. -/
def format (h : Heap) (obj : Address) (words refs : Nat) : Heap :=
  { h with memory := Object.format h.memory obj words refs }

def formatNarrow (h : Heap) (obj : Address) (words refs : Nat) : Heap :=
  { h with memory := Object.formatNarrow h.memory obj words refs }

end Heap

/-! ## Operations -/

/-- An operation on a heap.  A fault that stops it leaves the heap as far as it was changed. -/
abbrev HeapM := EStateM Fault Heap

namespace Heap

/-- Stores a reference into a slot of an object, in the width that the object has. -/
def setRef (obj : Address) (i : Nat) (target : Address) : HeapM Unit := do
  let h ← get
  if (Object.header h.memory obj).isNarrow then
    set { h with memory := Object.setNarrowRef h.memory obj i (← h.encoding.encode target) }
  else
    set { h with memory := Object.setRef h.memory obj i target }

end Heap

end MarkSweep
