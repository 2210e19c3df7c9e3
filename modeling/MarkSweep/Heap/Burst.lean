import MarkSweep.Heap.Allocation
/-!
# Burst — many allocations of one owner, some of which are kept

The sizes of a burst repeat in a cycle.  Every so many objects one is kept: it becomes a root of the owner, and in a
linked burst the objects behind it refer to it, up to and with the next one that is kept.
-/
namespace MarkSweep

structure Burst where
  count : Nat
  sizes : Array Nat
  refs : Nat
  /-- One in this many objects is kept; none at all if it is zero. -/
  keepEvery : Nat
  /-- Whether the first reference of an object is the object kept last. -/
  linked : Bool

namespace Burst

/-- Who allocates, and holds what is kept. -/
inductive Owner where
  | table (id : TableId)
  | mutator (id : MutatorId)

namespace Owner

def allocate (o : Owner) (words : Nat) : HeapM (Except HeapError Address) :=
  match o with
  | table _ => Heap.allocate words
  | mutator id => Heap.allocateFor id words

def hold (o : Owner) (h : Heap) (obj : Address) : Heap :=
  match o with
  | table id => { h with roots := (h.roots.push id obj).2 }
  | mutator id => h.updateRoots id fun r => { r with wide := r.wide.push obj }

end Owner

structure Progress where
  made : Nat
  first : Option Address
  last : Option Address
  kept : Option Address
  failed : Option HeapError

def Progress.start : Progress := ⟨0, none, none, none, none⟩

/-- Formats a granted object, links it, and keeps it where its turn is. -/
def receive (b : Burst) (o : Owner) (p : Progress) (obj : Address) (words : Nat) : HeapM Progress := do
  modify (·.format obj words b.refs)
  match b.linked, p.kept with
  | true, some kept => Heap.setRef obj 0 kept
  | _, _ => pure ()
  let p := { p with made := p.made + 1, first := p.first.or (some obj), last := some obj }
  if b.keepEvery ≠ 0 ∧ (p.made - 1) % b.keepEvery = 0 then
    modify fun h => o.hold h obj
    return { p with kept := some obj }
  else
    return p

/-- Allocates `n` more objects, or as many as the heap grants. -/
def advance (b : Burst) (o : Owner) : Nat → Progress → HeapM Progress
  | 0, p => return p
  | n + 1, p => do
    let words := b.sizes[p.made % b.sizes.size]?.getD 0
    match ← o.allocate words with
    | .error e => return { p with failed := some e }
    | .ok obj => advance b o n (← b.receive o p obj words)

def run (b : Burst) (o : Owner) : HeapM Progress := b.advance o b.count .start

end Burst

end MarkSweep
