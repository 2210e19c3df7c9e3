import MarkSweep.Memory.Reservation
/-!
# Bitmaps — one bit for every granule of a region

Bit `i` of a bitmap speaks of the granule that starts `i` granules above the start of the covered region.  The bits
are kept in 64-bit words inside a `BitmapStorage`, which is backed by memory only while it is committed; every commit
starts from an all-clear map.  Both the liveness bitmap and the free-chunk bitmap of a heap are of this type.

`mapWord_modifyWord` and `mapWord_fillWords` say what a write to one word, and to many, does to every word.
-/
namespace MarkSweep

def mapWordBits : Nat := 64

/-- Reserved space for the words of a bitmap; `purpose` is what a refused commit names. -/
structure BitmapStorage where
  bytes : Nat
  purpose : String
  committed : Bool

namespace BitmapStorage

def reserve (bytes : Nat) (purpose : String) (available : Nat → Bool := belowLimit) : Except Failure BitmapStorage := do
  let space ← Reservation.reserve .null bytes available
  return { bytes := space.size, purpose, committed := false }

def wordSize (s : BitmapStorage) : Nat := s.bytes / wordBytes

end BitmapStorage

structure Bitmap where
  covered : Region
  /-- The bytes one bit speaks of, a power of two. -/
  granuleBytes : Nat
  /-- The words that hold the bits of the whole granules of the region. -/
  mapWords : Nat
  storage : BitmapStorage
  words : Memory

namespace Bitmap

/-- The bytes of storage that hold a bit for every granule of `heapBytes` bytes, in whole pages. -/
def computeSize (heapBytes granuleBytes : Nat) : Except Fault Nat := do
  let bits ← divCeil heapBytes granuleBytes
  let words ← divCeil bits mapWordBits
  alignUp (← checkedMul words wordBytes) pageBytes

/-- The bitmap of `covered` over the first `storageWords` words of a storage that is not committed yet. -/
def ofStorage (covered : Region) (storage : BitmapStorage) (storageWords granuleBytes : Nat) :
    Except Fault Bitmap := do
  if !(isPowerOfTwo granuleBytes && wordBytes ≤ granuleBytes) then
    throw .badGranule
  let bits := covered.byteSize / granuleBytes
  let mapWords ← divCeil bits mapWordBits
  if storageWords < mapWords then
    throw .storageTooSmall
  return { covered, granuleBytes, mapWords, storage, words := .blank }

def covering (covered : Region) (granuleBytes : Nat) (purpose : String) (available : Nat → Bool := belowLimit) :
    Except Failure Bitmap := do
  let storage ← BitmapStorage.reserve (← computeSize covered.byteSize granuleBytes) purpose available
  return ← ofStorage covered storage storage.wordSize granuleBytes

/-- Backs the storage with zeroed memory, so that every bit is clear, whether or not it was backed before. -/
def commit (b : Bitmap) (granted : Bool) : Except HeapError Bitmap :=
  if granted then
    .ok { b with storage := { b.storage with committed := true }, words := .blank }
  else
    .error (.commit b.storage.purpose b.storage.bytes)

def uncommit (b : Bitmap) : Bitmap :=
  { b with storage := { b.storage with committed := false }, words := .blank }

def isCommitted (b : Bitmap) : Bool := b.storage.committed

/-- The bit of the granule that holds `a`. -/
def bitOf (b : Bitmap) (a : Address) : Nat := (a - b.covered.start) / b.granuleBytes

def addressOf (b : Bitmap) (bit : Nat) : Address := b.covered.start + bit * b.granuleBytes

def granules (b : Bitmap) : List Address := (List.range (b.covered.byteSize / b.granuleBytes)).map b.addressOf

/-! ## Words -/

def bitMask (i : Nat) : UInt64 := 1 <<< UInt64.ofNat i

def spanMask (lo hi : Nat) : UInt64 :=
  if hi - lo = mapWordBits then ~~~0 else (bitMask (hi - lo) - 1) <<< UInt64.ofNat lo

/-- The number of the lowest set bit at or above bit `i`, looking at `n` bits. -/
def lowestBit (w : UInt64) : Nat → Nat → Nat
  | 0, i => i
  | n + 1, i => if w &&& bitMask i != 0 then i else lowestBit w n (i + 1)

def uniformWord (set : Bool) : UInt64 := if set then ~~~0 else 0

def mapWord (words : Memory) (i : Nat) : UInt64 := .ofNat (words.word i)

def modifyWord (words : Memory) (i : Nat) (f : UInt64 → UInt64) : Memory := words.setWord i (f (mapWord words i)).toNat

theorem mapWord_modifyWord (words : Memory) (i j : Nat) (f : UInt64 → UInt64) :
    mapWord (modifyWord words i f) j = if i = j then f (mapWord words i) else mapWord words j := by
  unfold modifyWord mapWord
  rw [Memory.word_setWord]
  split <;> simp

theorem mapWord_fillWords (words : Memory) (i count j : Nat) (w : UInt64) :
    mapWord (words.fillWords i count w.toNat) j = if i ≤ j ∧ j < i + count then w else mapWord words j := by
  unfold mapWord
  rw [Memory.word_fillWords]
  split <;> simp

def testBit (b : Bitmap) (i : Nat) : Bool :=
  mapWord b.words (i / mapWordBits) &&& bitMask (i % mapWordBits) != 0

/-! ## Updates -/

def mark (b : Bitmap) (a : Address) : Bitmap :=
  let bit := b.bitOf a
  { b with words := modifyWord b.words (bit / mapWordBits) (· ||| bitMask (bit % mapWordBits)) }

def clear (b : Bitmap) (a : Address) : Bitmap :=
  let bit := b.bitOf a
  { b with words := modifyWord b.words (bit / mapWordBits) (· &&& ~~~bitMask (bit % mapWordBits)) }

def isMarked (b : Bitmap) (a : Address) : Bool := b.testBit (b.bitOf a)

/-- Word `w` of the map with its bits among `lo ≤ i < hi` set or cleared, where `lo` and `hi` number the bits of the
whole map. -/
def updateWord (set : Bool) (lo hi index : Nat) (w : UInt64) : UInt64 :=
  let first := if index = lo / mapWordBits then lo % mapWordBits else 0
  let last := if index = (hi - 1) / mapWordBits then (hi - 1) % mapWordBits + 1 else mapWordBits
  let mask := spanMask first last
  if set then w ||| mask else w &&& ~~~mask

/-- Sets or clears the bits `lo ≤ i < hi`.  The words between the first one and the last one change as a whole. -/
def updateBits (b : Bitmap) (set : Bool) (lo hi : Nat) : Bitmap :=
  if hi ≤ lo then b
  else
    let first := lo / mapWordBits
    let last := (hi - 1) / mapWordBits
    let words := modifyWord b.words first (updateWord set lo hi first)
    if first = last then { b with words }
    else
      let words := words.fillWords (first + 1) (last - first - 1) (uniformWord set).toNat
      { b with words := modifyWord words last (updateWord set lo hi last) }

/-- Sets the bits of the granules from the one of `start` up to, but not including, the one of `stop`. -/
def markRange (b : Bitmap) (start stop : Address) : Bitmap := b.updateBits true (b.bitOf start) (b.bitOf stop)

def clearRange (b : Bitmap) (start stop : Address) : Bitmap := b.updateBits false (b.bitOf start) (b.bitOf stop)

/-! ## Searches -/

/-- Looks for the first bit that equals `want` in the words from number `index` up to and with `last`; in the first of
them only the bits of `live` count.  Words without such a bit are passed over together, and at most `n` others are
looked at. -/
def searchWords (words : Memory) (want : Bool) (stop last : Nat) : Nat → Nat → UInt64 → Nat
  | 0, _, _ => stop
  | n + 1, index, live =>
    if last < index then stop
    else
      let w := mapWord words index
      let w := (if want then w else ~~~w) &&& live
      if w != 0 then min (index * mapWordBits + lowestBit w mapWordBits 0) stop
      else searchWords words want stop last n (words.firstNot (uniformWord !want).toNat (index + 1) (last + 1)) (~~~0)

/-- The first bit among `lo ≤ i < hi` that equals `want`, or `hi`. -/
def findBit (b : Bitmap) (want : Bool) (lo hi : Nat) : Nat :=
  if hi ≤ lo then hi
  else
    let first := lo / mapWordBits
    let last := (hi - 1) / mapWordBits
    searchWords b.words want hi last (last + 1 - first) first (~~~0 <<< UInt64.ofNat (lo % mapWordBits))

/-- The first marked granule from the one of `start` on, or the granule of `limit`. -/
def nextMarked (b : Bitmap) (start limit : Address) : Address :=
  b.addressOf (b.findBit true (b.bitOf start) (b.bitOf limit))

def nextClear (b : Bitmap) (start limit : Address) : Address :=
  b.addressOf (b.findBit false (b.bitOf start) (b.bitOf limit))

/-- Counts the marked granules from `cur`, a marked granule or the end of the search, up to `stop`. -/
def countFrom (b : Bitmap) (stop : Address) : Nat → Address → Nat → Nat
  | 0, _, count => count
  | n + 1, cur, count =>
    if cur < stop then countFrom b stop n (b.nextMarked (cur + b.granuleBytes) stop) (count + 1) else count

/-- The number of marked granules between two addresses, the second of them a granule start. -/
def countMarked (b : Bitmap) (start stop : Address) : Nat :=
  b.countFrom stop (b.bitOf stop - b.bitOf start) (b.nextMarked start stop) 0

end Bitmap

end MarkSweep
