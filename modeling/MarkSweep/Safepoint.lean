import MarkSweep.Address
/-!
# Safepoint — stopping every mutator for an operation

Threads that use the heap register as mutators.  One that needs the world stopped raises a request, waits until every
registered mutator has parked, runs its operation, and lets everyone go by ending the epoch.  Whoever parks first
publishes the references it holds, so that the operation sees the roots of every stopped thread.

`Safepoint` is the shared state, and each function on it is one section of code that runs under its lock.
-/
namespace MarkSweep

/-- How a thread takes part in an operation it asks for. -/
inductive Requester where
  | external
  | mutator (roots : List Address)
  deriving DecidableEq, Repr

namespace Requester

def isMutator : Requester → Bool
  | external => false
  | mutator _ => true

def roots : Requester → List Address
  | external => []
  | mutator roots => roots

end Requester

structure Safepoint where
  requested : Bool
  /-- A copy of `requested` that mutators poll without the lock. -/
  pending : Bool
  /-- Registered mutators that are not parked.  A parked one counts as running as soon as its epoch is over. -/
  running : Nat
  parked : Nat
  registered : Nat
  epoch : Nat
  threadRoots : List Address
  deriving DecidableEq, Repr

namespace Safepoint

def initial : Safepoint := ⟨false, false, 0, 0, 0, 0, []⟩

instance : Inhabited Safepoint := ⟨initial⟩

/-- Adds the calling thread as a running mutator.  It has to wait, and there is no result, while an operation is
requested. -/
def register (s : Safepoint) : Option Safepoint :=
  if s.requested then none
  else some { s with running := s.running + 1, registered := s.registered + 1 }

def unregister (s : Safepoint) : Except Fault Safepoint :=
  if s.running = 0 ∨ s.registered = 0 then .error .notRegistered
  else .ok { s with running := s.running - 1, registered := s.registered - 1 }

/-- Publishes the roots of a running mutator, which then waits for the end of the epoch. -/
def arrive (s : Safepoint) (roots : List Address) : Except Fault Safepoint :=
  if s.running = 0 then .error .overflow
  else .ok { s with running := s.running - 1, parked := s.parked + 1, threadRoots := s.threadRoots ++ roots }

/-- Asks for an operation.  `true` means that the caller's request stands; `false` that another one stood already, and
the caller waits for the end of the epoch. -/
def request (s : Safepoint) (r : Requester) : Except Fault (Bool × Safepoint) :=
  if s.requested then
    match r with
    | .external => .ok (false, s)
    | .mutator roots => (s.arrive roots).map (false, ·)
  else
    match r with
    | .external => .ok (true, { s with requested := true, pending := true })
    | .mutator roots =>
      if s.running = 0 then .error .overflow
      else .ok (true,
        { s with
          requested := true, pending := true, running := s.running - 1, threadRoots := s.threadRoots ++ roots })

/-- Starts the requested operation and hands it the published roots.  It has to wait while a mutator is running. -/
def begin? (s : Safepoint) : Option (List Address × Safepoint) :=
  if s.running = 0 then some (s.threadRoots, { s with threadRoots := [] }) else none

/-- Ends the epoch after the operation that `r` asked for: whoever is parked counts as running from here on. -/
def finish (s : Safepoint) (r : Requester) : Safepoint :=
  { s with
    requested := false
    pending := false
    epoch := s.epoch + 1
    running := s.running + s.parked + (if r.isMutator then 1 else 0)
    parked := 0 }

/-- Whether an operation can run without any other thread: the requester is the only registered mutator, or it is
external and there is none. -/
def runsAlone (s : Safepoint) (r : Requester) : Bool := s.running == (if r.isMutator then 1 else 0)

/-- Runs an operation with no other thread involved: gives the roots the operation sees, and the polled flag while it
runs. -/
def executeAlone (s : Safepoint) (r : Requester) : Except Fault ((List Address × Bool) × Safepoint) := do
  let (raised, s) ← s.request r
  match raised, s.begin? with
  | true, some (roots, s) => return ((roots, s.pending), s.finish r)
  | _, _ => throw .wouldBlock

end Safepoint

end MarkSweep
