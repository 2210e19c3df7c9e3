import MarkSweep.Heap.Lock
/-!
# Requests — what a program asks of its heap, one thing after the other

A `Request` is any call of the heap, any write of the program to memory, roots or slots, or a change of what the system
grants.  `serve` answers one of them.  A request that a fault stops is answered with the fault, and the next one finds the
heap as far as it was changed.
-/
namespace MarkSweep

/-- The causes of requests that make a cycle run. -/
def Cause.Cycles (c : Cause) : Prop := c = .allocationFailure ∨ c = .explicit

instance (c : Cause) : Decidable c.Cycles := inferInstanceAs (Decidable (_ ∨ _))

inductive Request where
  -- of an external thread
  | allocate (words : Nat)
  | newTlab (minWords requestedWords : Nat)
  | allocateIn (id : TlabId) (words : Nat)
  | dropTlab (id : TlabId)
  | carve (words : Nat)
  -- of a mutator
  | newMutator
  | allocateFor (id : MutatorId) (words : Nat)
  | dropMutator (id : MutatorId)
  -- of either
  | collect (id : Option MutatorId) (cause : Cause)
  | collectFull
  | collectTogether (cause : Cause) (cycles : cause.Cycles)
  | iterate (id : Option MutatorId)
  /-- All questions about the heap at once. -/
  | look
  -- writes of the program
  | setRef (obj : Address) (i : Nat) (target : Address)
  | write (f : Memory → Memory)
  | reroot (f : Roots → Roots)
  | hold (id : MutatorId) (f : RootSlots → RootSlots)
  -- the system
  | permit (granted : Bool)

def Notice.isAbort : Notice → Bool
  | .cycleAborted _ _ => true
  | _ => false

/-- The number of aborted cycles, as the log has it. -/
def Heap.aborts (h : Heap) : Nat := h.log.countP Notice.isAbort

/-- What can be seen of a heap beside the number of epochs, the recorded cause and the notices of aborted cycles. -/
def Heap.view (h : Heap) : Heap :=
  { h with
    safepoint := { h.safepoint with epoch := 0 }
    cause := .noGc
    log := h.log.filter (!·.isAbort) }

inductive Answer where
  | done
  | granted (r : Except HeapError Address)
  | buffer (r : Except HeapError TlabId)
  | found (a : Option Address)
  | mutator (id : MutatorId)
  | collected (r : Except HeapError Unit)
  | together (ok : Nat)
  | objects (starts : List Address)
  | seen (view : Heap)

namespace Request

open Guarded in
def run : Request → GuardedM Answer
  | allocate words => return .granted (← Guarded.allocate words)
  | newTlab minWords requestedWords => return .buffer (← Guarded.newTlab minWords requestedWords)
  | allocateIn id words => return .found (← unlocked (Heap.allocateIn id words))
  | dropTlab id => do
    Guarded.dropTlab id
    return .done
  | carve words => return .found (← unlocked (Heap.carve words))
  | newMutator => return .mutator (← unlocked Heap.newMutator)
  | allocateFor id words => return .granted (← Guarded.allocateFor id words)
  | dropMutator id => do
    unlocked (Heap.dropMutator id)
    return .done
  | collect id cause => return .collected (← Guarded.collect id cause)
  | collectFull => return .collected (← Guarded.collectFull)
  | collectTogether cause _ => return .together (← Guarded.collectTogether cause)
  | iterate id => return .objects (← Guarded.iterate id)
  | look => return .seen (← get).heap.view
  | setRef obj i target => do
    unlocked (Heap.setRef obj i target)
    return .done
  | write f => do
    unlocked (modify fun h => { h with memory := f h.memory })
    return .done
  | reroot f => do
    unlocked (modify fun h => { h with roots := f h.roots })
    return .done
  | hold id f => do
    unlocked (modify (·.updateRoots id f))
    return .done
  | permit granted => do
    unlocked (modify ({ · with granted }))
    return .done

/-- The answer to a request, or the fault that stopped it, and what it leaves. -/
def serve (r : Request) (g : Guarded) : Except Fault Answer × Guarded :=
  match r.run.run g with
  | .ok a g => (.ok a, g)
  | .error f g => (.error f, g)

def serveAll : List Request → Guarded → List (Except Fault Answer) × Guarded
  | [], g => ([], g)
  | r :: rs, g =>
    let (a, g) := r.serve g
    let (answers, g) := serveAll rs g
    (a :: answers, g)

end Request

/-- What a program reaches, one request after the other, whatever the requests are and however they end. -/
inductive Guarded.Reached : Guarded → Prop
  | create {settings : Settings} {base : Address} {granted hook : Bool} {available : Nat → Bool} {h : Heap}
      (run : Heap.create settings base granted hook available = .ok h) : Reached ⟨h, false⟩
  | serve {g : Guarded} (r : Request) (reached : Reached g) : Reached (r.serve g).2

end MarkSweep
