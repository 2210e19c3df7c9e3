import MarkSweep.Object.Narrow
import MarkSweep.Record
/-!
# Settings — the sizes a heap is made with

`problem?` names the first thing that is wrong with settings no heap can be made with;
`resolve` rounds the heap sizes up to pages and keeps the bounds of allocation buffers in order.
-/
namespace MarkSweep

/-- All sizes are in bytes, the granule is in words. -/
structure Settings where
  /-- Reported at the start.  The whole maximum is committed at once. -/
  initialHeapSize : Nat
  maxHeapSize : Nat
  minTlabSize : Nat
  /-- The largest buffer a mutator gets; raised to the smallest one where it lies below. -/
  maxTlabSize : Nat
  tlabSize : Nat
  /-- Object alignment, smallest chunk and the step of the bitmaps. -/
  granuleWords : Nat
  deriving DecidableEq, Repr

inductive SettingsProblem where
  | zeroSize
  | granuleNotPowerOfTwo
  | granuleAbovePage
  | initialAboveMax
  | maxBelowGranule
  | maxAboveNarrowRange
  deriving DecidableEq, Repr

namespace SettingsProblem

def reason : SettingsProblem → String
  | zeroSize => "Sizes must be > 0"
  | granuleNotPowerOfTwo => "granule_words must be a power of two"
  | granuleAbovePage => "granule_words must not exceed a page"
  | initialAboveMax => "initial_heap_size must not exceed max_heap_size"
  | maxBelowGranule => "max_heap_size must hold at least one granule"
  | maxAboveNarrowRange => "max_heap_size too large for narrow references"

def toError (p : SettingsProblem) : HeapError := .invalidSettings p.reason

end SettingsProblem

namespace Settings

def standard : Settings :=
  { initialHeapSize := 64 * 1024 * 1024
    maxHeapSize := 256 * 1024 * 1024
    minTlabSize := 2 * 1024
    maxTlabSize := 4 * 1024 * 1024
    tlabSize := 64 * 1024
    granuleWords := 2 }

instance : Inhabited Settings := ⟨standard⟩

def granuleBytes (s : Settings) : Except Fault Nat := checkedMul s.granuleWords wordBytes

/-- The first problem of the settings, in the order of the checks. -/
def problem? (s : Settings) : Except Fault (Option SettingsProblem) :=
  if s.maxHeapSize = 0 ∨ s.minTlabSize = 0 ∨ s.tlabSize = 0 then .ok (some .zeroSize)
  else if isPowerOfTwo s.granuleWords = false then .ok (some .granuleNotPowerOfTwo)
  else do
    let granuleBytes ← s.granuleBytes
    -- a reservation starts at a page, and a granule must not need more
    if pageBytes < granuleBytes then return some .granuleAbovePage
    else if s.maxHeapSize < s.initialHeapSize then return some .initialAboveMax
    else if s.maxHeapSize < granuleBytes then return some .maxBelowGranule
    -- narrow references number the granules from one on
    else if narrowLimit - 1 ≤ s.maxHeapSize / granuleBytes then return some .maxAboveNarrowRange
    else return none

def validate (s : Settings) : Except Failure Unit := do
  match ← s.problem? with
  | some p => throw (.error p.toError)
  | none => return

/-- Whether `resolve` raises the largest buffer to the smallest one. -/
def raisesMaxTlab (s : Settings) : Bool := s.maxTlabSize < s.minTlabSize

/-- Rounds the heap sizes up to pages, and the largest buffer up to the smallest one. -/
def resolve (s : Settings) : Except Fault Settings := do
  let initialHeapSize ← alignUp s.initialHeapSize pageBytes
  let maxHeapSize ← alignUp s.maxHeapSize pageBytes
  return { s with initialHeapSize, maxHeapSize, maxTlabSize := max s.maxTlabSize s.minTlabSize }

def sizes (s : Settings) : List (String × Nat) :=
  [("initial_heap_size", s.initialHeapSize), ("max_heap_size", s.maxHeapSize), ("min_tlab_size", s.minTlabSize),
    ("max_tlab_size", s.maxTlabSize), ("tlab_size", s.tlabSize), ("granule_words", s.granuleWords)]

def describe (s : Settings) : String := recordText "HeapSettings" (countFields s.sizes)

end Settings

end MarkSweep
