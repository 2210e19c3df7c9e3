import MarkSweep.Memory
import MarkSweep.Object.Narrow
/-!
# Objects — how an object lies in memory

The first word of an object is its header: the size in words (32 bits), the number of references (16 bits) and flags
(16 bits).  The references follow, one to a word, or two to a word in a narrow object; the rest is payload.  A filler
is a dead object that only covers words.
-/
namespace MarkSweep

structure Header where
  size : Nat
  refs : Nat
  flags : Nat
  deriving DecidableEq, Repr

namespace Header

def fillerFlag : Nat := 1
def narrowFlag : Nat := 2

@[noinline] def sizeLimit : Nat := 0x100000000

/-- One past the largest number of references, and past the largest flags. -/
def refsLimit : Nat := 0x10000

/-- The header word.  The size is cut to its 32 bits. -/
def encode (h : Header) : Nat :=
  h.size % sizeLimit + (h.refs % refsLimit + h.flags % refsLimit * refsLimit) * sizeLimit

def decode (w : Nat) : Header := ⟨w % sizeLimit, w / sizeLimit % refsLimit, w / sizeLimit / refsLimit % refsLimit⟩

def isFiller (h : Header) : Bool := h.flags.testBit 0

def isNarrow (h : Header) : Bool := h.flags.testBit 1

theorem decode_encode (h : Header) :
    decode h.encode = ⟨h.size % sizeLimit, h.refs % refsLimit, h.flags % refsLimit⟩ := by
  simp only [decode, encode, sizeLimit, refsLimit, Header.mk.injEq]
  omega

end Header

inductive Slot where
  | wide (a : Address)
  | narrow (a : Address)
  deriving DecidableEq, Repr

namespace Slot

def address : Slot → Address
  | wide a | narrow a => a

def isWide : Slot → Bool
  | wide _ => true
  | narrow _ => false

/-- The 32 bits at `a`, a multiple of four: the lower half of a word comes first. -/
def readHalf (m : Memory) (a : Address) : Nat :=
  let w := m.read a
  if a % wordBytes < 4 then w % narrowLimit else w / narrowLimit

/-- Replaces the 32 bits at `a` and keeps the other half of the word. -/
def writeHalf (m : Memory) (a : Address) (n : Nat) : Memory :=
  let w := m.read a
  m.write a (if a % wordBytes < 4 then w / narrowLimit * narrowLimit + n else w % narrowLimit + n * narrowLimit)

def load (m : Memory) (e : NarrowEncoding) : Slot → Except Fault Address
  | wide a => .ok (m.read a)
  | narrow a => e.decode (readHalf m a)

end Slot

namespace Object

/-- The words of an object with `refs` wide references and `payload` words of other data. -/
def wideWords (refs payload : Nat) : Except Fault Nat := do
  checkedAdd (← checkedAdd 1 refs) payload

def narrowWords (refs payload : Nat) : Except Fault Nat := do
  checkedAdd (← checkedAdd 1 (← divCeil refs 2)) payload

def leastWords (refs : Nat) (narrow : Bool) : Nat := if narrow then 1 + (refs + 1) / 2 else 1 + refs

def header (m : Memory) (obj : Address) : Header := .decode (m.read obj)

/-- The size of the object at `obj` in words, as its header has it. -/
def size (m : Memory) (obj : Address) : Nat := (header m obj).size

def isFiller (m : Memory) (obj : Address) : Bool := (header m obj).isFiller

/-- Writes a header over `words` words and zeroes the words behind it. -/
def write (m : Memory) (obj : Address) (words refs flags : Nat) : Memory :=
  (m.write obj (Header.encode ⟨words, refs, flags⟩)).zero (obj + wordBytes) (words - 1)

def format (m : Memory) (obj : Address) (words refs : Nat) : Memory := write m obj words refs 0

def formatNarrow (m : Memory) (obj : Address) (words refs : Nat) : Memory := write m obj words refs Header.narrowFlag

/-- Formats `words` words as one dead object without references. -/
def fill (m : Memory) (start : Address) (words : Nat) : Memory := write m start words 0 Header.fillerFlag

def wideSlot (obj : Address) (i : Nat) : Address := obj + (1 + i) * wordBytes

def narrowSlot (obj : Address) (i : Nat) : Address := obj + wordBytes + i * 4

def setRef (m : Memory) (obj : Address) (i : Nat) (target : Address) : Memory := m.write (wideSlot obj i) target

def getRef (m : Memory) (obj : Address) (i : Nat) : Address := m.read (wideSlot obj i)

def setNarrowRef (m : Memory) (obj : Address) (i n : Nat) : Memory := Slot.writeHalf m (narrowSlot obj i) n

/-- The reference slots of the object at `obj`, in order; a filler has none. -/
def slots (m : Memory) (obj : Address) : List Slot :=
  let h := header m obj
  if h.isFiller then []
  else (List.range h.refs).map fun i => if h.isNarrow then .narrow (narrowSlot obj i) else .wide (wideSlot obj i)

end Object

end MarkSweep
