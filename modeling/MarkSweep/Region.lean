import MarkSweep.Address
import MarkSweep.Record
/-!
# Regions — half-open ranges of addresses
-/
namespace MarkSweep

/-- The addresses `a` with `start ≤ a < stop`. -/
structure Region where
  start : Address
  stop : Address
  deriving DecidableEq, Repr

namespace Region

def ofWords (start : Address) (words : Nat) : Except Fault Region := do
  return ⟨start, ← start.addWords words⟩

/-- The region between two addresses; the second may not lie below the first. -/
def ofBounds (start stop : Address) : Except Fault Region := do
  let _ ← checkedSub stop start
  return ⟨start, stop⟩

def byteSize (r : Region) : Nat := r.stop - r.start

def wordSize (r : Region) : Nat := r.byteSize / wordBytes

def isEmpty (r : Region) : Bool := r.start == r.stop

def contains (r : Region) (a : Address) : Bool := r.start ≤ a && a < r.stop

def describe (r : Region) : String :=
  recordText "MemRegion" [("start", toHex r.start), ("end", toHex r.stop)]

theorem contains_iff {r : Region} {a : Address} : r.contains a = true ↔ r.start ≤ a ∧ a < r.stop := by
  simp [contains]

end Region

end MarkSweep
