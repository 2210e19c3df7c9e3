import MarkSweep.Bitmap
import MarkSweep.Object
import MarkSweep.Roots
/-!
# Marking — the objects that references lead to

Marking is a depth-first search from the roots with an explicit stack.  An object is marked when it is pushed, so that
it is pushed at most once.  `Reachable` says which objects references lead to.
-/
namespace MarkSweep

/-- `y` is the target of a reference slot of the object at `x`. -/
def PointsTo (m : Memory) (e : NarrowEncoding) (x y : Address) : Prop :=
  y ≠ 0 ∧ ∃ s ∈ Object.slots m x, s.load m e = .ok y

/-- The objects that references lead to from the targets of `roots`. -/
inductive Reachable (m : Memory) (e : NarrowEncoding) (roots : List Address) : Address → Prop
  | root {x} : x ∈ roots → x ≠ 0 → Reachable m e roots x
  | step {x y} : Reachable m e roots x → PointsTo m e x y → Reachable m e roots y

structure MarkStats where
  markedObjects : Nat
  maxStackDepth : Nat
  deriving DecidableEq, Repr

/-- A search under way: the bitmap so far, and the objects whose slots have not been looked at. -/
structure Marker where
  bitmap : Bitmap
  stack : List Address
  depth : Nat
  stats : MarkStats

/-- A part of a search.  A fault that stops it leaves what is marked. -/
abbrev MarkM := EStateM Fault Marker

namespace Marker

def start (bitmap : Bitmap) : Marker := ⟨bitmap, [], 0, ⟨0, 0⟩⟩

def push (k : Marker) (a : Address) : Marker :=
  { bitmap := k.bitmap.mark a
    stack := a :: k.stack
    depth := k.depth + 1
    stats := ⟨k.stats.markedObjects + 1, max k.stats.maxStackDepth (k.depth + 1)⟩ }

def pop? (k : Marker) : Option Address × Marker :=
  match k.stack with
  | [] => (none, k)
  | a :: rest => (some a, { k with stack := rest, depth := k.depth - 1 })

/-- Marks and pushes the object at `a`, unless `a` is null or the object was found before.  No bit speaks of an address
outside the region. -/
def discover (a : Address) : MarkM Unit := do
  if a ≠ 0 then
    let k ← get
    if !k.bitmap.covered.contains a then
      throw (.outsideRegion a)
    if !k.bitmap.isMarked a then
      set (k.push a)

def trace (m : Memory) (e : NarrowEncoding) (obj : Address) : MarkM Unit :=
  (Object.slots m obj).forM fun s => do discover (← s.load m e)

/-- Empties the stack, looking at no more than `n` objects. -/
def drain (m : Memory) (e : NarrowEncoding) : Nat → MarkM Unit
  | 0 => pure ()
  | n + 1 => do
    match ← modifyGet pop? with
    | none => pure ()
    | some obj =>
      trace m e obj
      drain m e n

/-- Discovers the targets of the roots and all that they lead to, looking at no more than `n` objects. -/
def search (m : Memory) (e : NarrowEncoding) (roots : List Reference) (n : Nat) : MarkM Unit := do
  roots.forM fun r => do discover (← r.load e)
  drain m e n

/-- Marks every object that the roots lead to without passing an object that is marked already.  Every object on the
stack has its own bit, so the search looks at no more objects than the map has bits.  A fault leaves the bitmap as far
as it was marked. -/
def run (bitmap : Bitmap) (m : Memory) (e : NarrowEncoding) (roots : List Reference) :
    Except Fault MarkStats × Bitmap :=
  match (search m e roots (bitmap.mapWords * mapWordBits)).run (start bitmap) with
  | .ok () k => (.ok k.stats, k.bitmap)
  | .error f k => (.error f, k.bitmap)

end Marker

end MarkSweep
