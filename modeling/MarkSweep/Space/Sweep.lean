import MarkSweep.Space
/-!
# Sweep — the free list made anew from the liveness bitmap

One walk over the space finds the maximal runs of free words and of objects that are not marked; each becomes one
chunk of the new free list.  The chunks lie behind the walk by the time they are added, so the walk can be made first.
-/
namespace MarkSweep

structure SweepStats where
  liveObjects : Nat
  liveWords : Nat
  deadObjects : Nat
  reclaimedWords : Nat
  freeWords : Nat
  freeChunks : Nat
  deriving DecidableEq, Repr

def SweepStats.counts (s : SweepStats) : List (String × Nat) :=
  [("live_objects", s.liveObjects), ("live_words", s.liveWords), ("dead_objects", s.deadObjects),
    ("reclaimed_words", s.reclaimedWords), ("free_words", s.freeWords), ("free_chunks", s.freeChunks)]

/-- A sweep under way: the space so far, and the run of free words that ends where the sweep stands. -/
structure Sweep where
  space : Space
  run : Option Chunk
  liveObjects : Nat
  liveWords : Nat
  deadObjects : Nat
  reclaimedWords : Nat

namespace Sweep

def start (s : Space) : Sweep := ⟨s.clearChunks, none, 0, 0, 0, 0⟩

def closeRun (w : Sweep) : Sweep :=
  match w.run with
  | none => w
  | some c => { w with space := w.space.addChunk c, run := none }

/-- Makes `words` words from `a` on part of the current run. -/
def extendRun (w : Sweep) (a : Address) (words : Nat) : Sweep :=
  match w.run with
  | none => { w with run := some ⟨a, words⟩ }
  | some c => { w with run := some ⟨c.start, c.words + words⟩ }

def step (live : Bitmap) (w : Sweep) : Extent → Sweep
  | .object a n =>
    if live.isMarked a then
      let w := w.closeRun
      { w with liveObjects := w.liveObjects + 1, liveWords := w.liveWords + n }
    else
      let w := w.extendRun a n
      { w with deadObjects := w.deadObjects + 1, reclaimedWords := w.reclaimedWords + n }
  | .free a n => w.extendRun a n

def stats (w : Sweep) : SweepStats :=
  { liveObjects := w.liveObjects
    liveWords := w.liveWords
    deadObjects := w.deadObjects
    reclaimedWords := w.reclaimedWords
    freeWords := w.space.freeWords
    freeChunks := w.space.list.length }

end Sweep

namespace Space

/-- Sweeps the space against the liveness bitmap.  Where an object cannot be stepped over, the free list stays as far
as it was made. -/
def sweep (s : Space) (m : Memory) (live : Bitmap) : Except Fault SweepStats × Space :=
  let walk := s.walk m
  let w := walk.extents.foldl (Sweep.step live) (Sweep.start s)
  match walk.fault with
  | some f => (.error f, w.space)
  | none =>
    let w := w.closeRun
    (.ok w.stats, w.space)

end Space

end MarkSweep
