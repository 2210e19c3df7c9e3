import MarkSweep.Bitmap
import MarkSweep.Space.FreeList
import MarkSweep.Object
/-!
# Space — the words objects are allocated in

A space hands out chunks of whole granules.  Free words are known twice: as the chunks of the free list, and as the
set bits of the free-chunk bitmap, which lets `walk` step over the space extent by extent: a set bit opens a free run,
and a clear bit an object, whose header has its size.
-/
namespace MarkSweep

inductive Extent where
  | object (start : Address) (words : Nat)
  | free (start : Address) (words : Nat)
  deriving DecidableEq, Repr

namespace Extent

def start : Extent → Address
  | object a _ | free a _ => a

def words : Extent → Nat
  | object _ n | free _ n => n

/-- The start of an object, nothing for a free run. -/
def object? : Extent → Option Address
  | object a _ => some a
  | free _ _ => none

end Extent

structure Space where
  region : Region
  granuleWords : Nat
  freeChunks : Bitmap
  list : FreeList

/-- The extents a walk met, and the fault that stopped it before the end of the space. -/
structure Walk where
  extents : List Extent
  fault : Option Fault

namespace Space

/-- The space over `region` with all its words in one free chunk. -/
def create (region : Region) (granuleWords : Nat) (granted : Bool) (available : Nat → Bool := belowLimit) :
    Except Failure Space := do
  let granuleBytes ← checkedMul granuleWords wordBytes
  let bits ← (← Bitmap.covering region granuleBytes "free chunk bitmap" available).commit granted
  if region.isEmpty then
    return { region, granuleWords, freeChunks := bits, list := .empty }
  else
    return {
      region, granuleWords
      freeChunks := bits.markRange region.start region.stop
      list := (FreeList.empty.push ⟨region.start, region.wordSize⟩).2 }

/-- `words` rounded up to whole granules, and never less than one. -/
def adjust (s : Space) (words : Nat) : Except Fault Nat := alignUp (max words 1) s.granuleWords

/-- Whether the space is large enough for `words` words, were all of it free. -/
def canFit (s : Space) (words : Nat) : Bool := words ≤ s.region.wordSize

/-- Carves a chunk of at least `words` words; nothing where no free chunk is large enough. -/
def allocate (s : Space) (words : Nat) : Except Fault (Option Address × Space) := do
  if !s.canFit words then
    return (none, s)
  let words ← s.adjust words
  let (taken, list) := s.list.take words
  match ← taken with
  | none => return (none, s)
  | some start =>
    return (some start, { s with list, freeChunks := s.freeChunks.clearRange start (← start.addWords words) })

def freeWords (s : Space) : Nat := s.list.freeWords

def usedWords (s : Space) : Nat := s.region.wordSize - s.freeWords

def isIn (s : Space) (a : Address) : Bool := s.region.contains a

def isFreeChunk (s : Space) (a : Address) : Bool := s.freeChunks.isMarked a

def chunks (s : Space) : List Chunk := s.list.chunks

def clearChunks (s : Space) : Space := { s with list := s.list.clear }

def addChunk (s : Space) (c : Chunk) : Space :=
  { s with
    list := (s.list.push c).2
    freeChunks := s.freeChunks.markRange c.start (c.start + c.words * wordBytes) }

/-- Drops the free list and makes one of the given chunks.  The free-chunk bitmap keeps its bits. -/
def rebuild (s : Space) (chunks : List Chunk) : Space := chunks.foldl addChunk s.clearChunks

/-- The extent at `cur`, an address of the space. -/
def extentAt (s : Space) (m : Memory) (cur : Address) : Except Fault Extent :=
  if s.freeChunks.isMarked cur then
    .ok (.free cur ((s.freeChunks.nextClear cur s.region.stop - cur) / wordBytes))
  else
    let size := Object.size m cur
    if (s.region.stop - cur) / wordBytes < size then .error (.objectPastEnd cur size)
    else (s.adjust size).map (.object cur)

/-- Walks on from `cur` for at most `n` extents; `met` holds those met so far, the last first. -/
def walkFrom (s : Space) (m : Memory) : Nat → Address → List Extent → Walk
  | 0, _, met => ⟨met.reverse, none⟩
  | n + 1, cur, met =>
    if cur < s.region.stop then
      match s.extentAt m cur with
      | .error f => ⟨met.reverse, some f⟩
      | .ok e => walkFrom s m n (cur + e.words * wordBytes) (e :: met)
    else ⟨met.reverse, none⟩

/-- Walks over the whole space once in address order.  Every extent has at least one granule, so there are no more
extents than granules. -/
def walk (s : Space) (m : Memory) : Walk :=
  s.walkFrom m (s.region.wordSize / s.granuleWords) s.region.start []

def objects (s : Space) (m : Memory) : Except Fault (List Address) :=
  let w := s.walk m
  match w.fault with
  | some f => .error f
  | none => .ok (w.extents.filterMap Extent.object?)

end Space

end MarkSweep
