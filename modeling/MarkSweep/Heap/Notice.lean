import MarkSweep.Address
import MarkSweep.Heap.Cause
import MarkSweep.Record
/-!
# Notices — what the heap tells its log
-/
namespace MarkSweep

/-- The outcome of a completed collection; sizes are in words. -/
structure CycleStats where
  cause : Cause
  markedObjects : Nat
  liveWords : Nat
  reclaimedWords : Nat
  freeWords : Nat
  freeChunks : Nat
  /-- Words of allocation buffers that were given up at the start of the cycle. -/
  tlabWasteWords : Nat
  deriving DecidableEq, Repr

namespace CycleStats

def counts (s : CycleStats) : List (String × Nat) :=
  [("marked_objects", s.markedObjects), ("live_words", s.liveWords), ("reclaimed_words", s.reclaimedWords),
    ("free_words", s.freeWords), ("free_chunks", s.freeChunks), ("tlab_waste_words", s.tlabWasteWords)]

def describe (s : CycleStats) : String := recordText "CycleStats" (("cause", s.cause.name) :: countFields s.counts)

end CycleStats

inductive Level where
  | info
  | warn
  | error
  deriving DecidableEq, Repr

namespace Level

def name : Level → String
  | info => "INFO"
  | warn => "WARN"
  | error => "ERROR"

end Level

inductive Notice where
  | started (initialBytes maxBytes : Nat) (low : Address) (maxTlabWords granuleBytes : Nat)
  | maxTlabRaised (bytes : Nat)
  | requestHandled (cause : Cause)
  | requestIgnored (cause : Cause)
  | cycleCompleted (number : Nat) (stats : CycleStats)
  | cycleAborted (cause : Cause) (error : HeapError)
  deriving DecidableEq, Repr

namespace Notice

def level : Notice → Level
  | maxTlabRaised _ => .warn
  | cycleAborted _ _ => .error
  | _ => .info

def kilobytes (bytes : Nat) : Nat := bytes / 1024

def message : Notice → String
  | started initialBytes maxBytes low maxTlabWords granuleBytes =>
    s!"Using MSweep GC: heap {kilobytes initialBytes}K initial, {kilobytes maxBytes}K max at {toHex low}, " ++
    s!"TLAB max {kilobytes (maxTlabWords * wordBytes)}K, granule {granuleBytes} bytes"
  | maxTlabRaised bytes => s!"max_tlab_size < min_tlab_size, adjusting it to {bytes}"
  | requestHandled cause => s!"GC request for \"{cause.title}\" is handled"
  | requestIgnored cause => s!"GC request for \"{cause.title}\" is ignored"
  | cycleCompleted number s =>
    s!"GC({number}) {s.cause.title}: {kilobytes (s.liveWords * wordBytes)}K live, " ++
    s!"{kilobytes (s.reclaimedWords * wordBytes)}K reclaimed, " ++
    s!"{kilobytes (s.freeWords * wordBytes)}K free in {s.freeChunks} chunks"
  | cycleAborted cause e => s!"{cause.title}: collection aborted: {e.message}"

def line (n : Notice) : String := s!"{n.level.name} {n.message}"

end Notice

end MarkSweep
