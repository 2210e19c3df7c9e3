import MarkSweep.Object
/-!
# Allocation buffers — chunks handed to one thread to allocate in

A buffer grants its words from the low end up.  Retiring it covers the words not granted with a filler, so that the
heap can be walked again, and leaves it empty.  The registry knows the buffers of all live owners, so that a
collection can retire every one of them.
-/
namespace MarkSweep

/-- The words `start ≤ a < top` are granted, the words `top ≤ a < stop` are not.  An empty buffer starts at null. -/
structure Tlab where
  start : Address
  top : Address
  stop : Address
  /-- Ranges installed over the lifetime of the buffer. -/
  refills : Nat
  /-- Words granted over the lifetime of the buffer.  No sum is checked here: the words of the ranges bound it. -/
  allocatedWords : Nat
  deriving DecidableEq, Repr

namespace Tlab

def empty : Tlab := ⟨.null, .null, .null, 0, 0⟩

instance : Inhabited Tlab := ⟨empty⟩

def isEmpty (t : Tlab) : Bool := t.start == 0

def sizeWords (t : Tlab) : Nat := (t.stop - t.start) / wordBytes

def usedWords (t : Tlab) : Nat := (t.top - t.start) / wordBytes

def freeWords (t : Tlab) : Nat := (t.stop - t.top) / wordBytes

def contains (t : Tlab) (a : Address) : Bool := t.start ≤ a && a < t.stop

def install (t : Tlab) (start : Address) (words : Nat) : Tlab :=
  { t with start, top := start, stop := start + words * wordBytes, refills := t.refills + 1 }

/-- Grants `words` words, or nothing where fewer are left. -/
def allocate (t : Tlab) (words : Nat) : Option (Address × Tlab) :=
  if t.freeWords < words then none
  else some (t.top, { t with top := t.top + words * wordBytes, allocatedWords := t.allocatedWords + words })

/-- Fills the words not granted and empties the buffer.  Gives the number of those words. -/
def retire (m : Memory) (t : Tlab) : Nat × Memory × Tlab :=
  if t.isEmpty then (0, m, t)
  else
    let waste := t.freeWords
    (waste, if 0 < waste then Object.fill m t.top waste else m, { t with start := 0, top := 0, stop := 0 })

end Tlab

/-- What a buffer is known by, also once it is no longer registered. -/
abbrev TlabId := Nat

structure TlabRegistry where
  buffers : Array Tlab
  registered : List TlabId
  deriving Repr

namespace TlabRegistry

def empty : TlabRegistry := ⟨#[], []⟩

instance : Inhabited TlabRegistry := ⟨empty⟩

def register (r : TlabRegistry) : TlabId × TlabRegistry :=
  (r.buffers.size, ⟨r.buffers.push .empty, r.registered ++ [r.buffers.size]⟩)

def unregister (r : TlabRegistry) (id : TlabId) : TlabRegistry :=
  { r with registered := r.registered.filter (· != id) }

def length (r : TlabRegistry) : Nat := r.registered.length

def isEmpty (r : TlabRegistry) : Bool := r.length == 0

def get (r : TlabRegistry) (id : TlabId) : Tlab := r.buffers[id]?.getD .empty

def set (r : TlabRegistry) (id : TlabId) (t : Tlab) : TlabRegistry := { r with buffers := r.buffers.setIfInBounds id t }

def retire (r : TlabRegistry) (m : Memory) (id : TlabId) : Nat × Memory × TlabRegistry :=
  let (waste, m, t) := (r.get id).retire m
  (waste, m, r.set id t)

/-- Retires every registered buffer.  Gives the sum of the words they did not grant. -/
def retireAll (r : TlabRegistry) (m : Memory) : Nat × Memory × TlabRegistry :=
  r.registered.foldl (fun (total, m, r) id =>
    let (waste, m, r) := r.retire m id
    (total + waste, m, r)) (0, m, r)

end TlabRegistry

end MarkSweep
