import MarkSweep.Safepoint
/-!
# Threads at a safepoint — every interleaving of the locked sections

A `World` is a safepoint together with the threads that use it.  Its steps are the locked sections: which thread runs
one, and which, is the scheduler's choice, and a section that has to wait is no step.  A thread takes part as a mutator
only while it is registered as one.  `Rendezvous.run` is the run of a number of operations in which every mutator parks,
or asks for an operation itself, while another one is requested.
-/
namespace MarkSweep

inductive ThreadState where
  /-- Neither waiting nor in charge of an operation. -/
  | idle
  /-- Parked until the given epoch is over, with the roots it published. -/
  | parked (epoch : Nat) (roots : List Address)
  /-- Its request was refused, and it waits until the given epoch is over. -/
  | refused (epoch : Nat) (r : Requester)
  /-- Its request stands, and it waits until no mutator runs. -/
  | requesting (r : Requester)
  /-- Its operation runs and sees these roots. -/
  | executing (r : Requester) (roots : List Address)
  deriving DecidableEq, Repr

/-- A thread with the number of times it parked and the number of its requests that were refused. -/
structure Thread where
  state : ThreadState
  /-- How many of the registered mutators the thread is.  Nothing keeps a thread from registering again. -/
  registrations : Nat
  parks : Nat
  refusals : Nat
  deriving DecidableEq, Repr

namespace Thread

def fresh : Thread := ⟨.idle, 0, 0, 0⟩

instance : Inhabited Thread := ⟨fresh⟩

def isMutator (t : Thread) : Bool := 0 < t.registrations

end Thread

inductive Action where
  | register
  | unregister
  | park (roots : List Address)
  | request (r : Requester)
  /-- Starts the operation once no mutator runs.  It is a section of its own even where it could follow the request with
  the lock held. -/
  | begin
  | finish
  /-- Goes on after an epoch.  A mutator that parked parks again, with these roots, if the next operation is requested
  by then. -/
  | wake (roots : List Address)
  deriving DecidableEq, Repr

structure World where
  safepoint : Safepoint
  threads : List Thread
  /-- The roots that each completed operation saw, in the order of the operations. -/
  completed : List (List Address)
  deriving Repr

namespace World

def initial (n : Nat) : World := ⟨.initial, .replicate n .fresh, []⟩

def parkThread (s : Safepoint) (t : Thread) (roots : List Address) : Except Fault (Option (Safepoint × Thread)) := do
  let s' ← s.arrive roots
  return some (s', { t with state := .parked s.epoch roots, parks := t.parks + 1 })

/-- A locked section of one thread; nothing where the thread is not to run it, or has to wait. -/
def stepThread (s : Safepoint) (t : Thread) (a : Action) : Except Fault (Option (Safepoint × Thread)) :=
  match t.state, a with
  | .idle, .register => return s.register.map (·, { t with registrations := t.registrations + 1 })
  | .idle, .unregister =>
    if t.isMutator then do
      let s ← s.unregister
      return some (s, { t with registrations := t.registrations - 1 })
    else return none
  | .idle, .park roots =>
    if t.isMutator then
      if s.requested then parkThread s t roots else return some (s, t)
    else return none
  | .idle, .request r =>
    if r.isMutator && !t.isMutator then return none
    else do
      let (raised, s') ← s.request r
      return some (s', { t with state := if raised then .requesting r else .refused s.epoch r })
  | .requesting r, .begin => return s.begin?.map fun (roots, s) => (s, { t with state := .executing r roots })
  | .executing r _, .finish => return some (s.finish r, { t with state := .idle })
  | .parked epoch _, .wake roots =>
    if s.epoch = epoch then return none
    else if s.requested then parkThread s t roots
    else return some (s, { t with state := .idle })
  | .refused epoch _, .wake _ =>
    if s.epoch = epoch then return none
    else return some (s, { t with state := .idle, refusals := t.refusals + 1 })
  | _, _ => return none

/-- The operations completed by a step: the one that the thread was executing, where it ends. -/
def completedBy (t : Thread) (a : Action) : List (List Address) :=
  match a, t.state with
  | .finish, .executing _ roots => [roots]
  | _, _ => []

/-- A locked section of thread number `i`; nothing where it is not to run it, or has to wait. -/
def step (w : World) (i : Nat) (a : Action) : Except Fault (Option World) := do
  match w.threads[i]? with
  | none => return none
  | some t =>
    return (← stepThread w.safepoint t a).map fun (s, t') =>
      { safepoint := s, threads := w.threads.set i t', completed := w.completed ++ completedBy t a }

/-- The steps of a schedule; nothing where one of them is no step. -/
def run (w : World) (schedule : List (Nat × Action)) : Option World :=
  schedule.foldlM (fun w (i, a) => (w.step i a).toOption.join) w

end World

structure Rendezvous where
  registered : Nat
  final : World

namespace Rendezvous

/-- The schedule of one operation that thread `main` asks for: every mutator parks, or makes the request given for it,
while the operation is requested, and goes on after it. -/
def round (main : Nat) (asking : Requester) (mutators : List (Nat × Action)) : List (Nat × Action) :=
  [(main, .request asking)] ++ mutators ++ [(main, .begin), (main, .finish)] ++
    mutators.map fun (i, _) => (i, .wake [])

/-- Runs `rounds` operations over one thread for each list of roots.  The threads numbered in `late` ask for an
operation themselves while one is requested, the others park.  The operations are asked for by one more thread, which
is a mutator itself if `own` has its roots. -/
def run (mutators : List (List Address)) (rounds : Nat) (late : List Nat) (own : Option (List Address)) :
    Option Rendezvous := do
  let main := mutators.length
  let members := List.range main ++ (if own.isSome then [main] else [])
  let asking := match own with
    | none => Requester.external
    | some roots => .mutator roots
  let meet := mutators.zipIdx.map fun (roots, i) =>
    (i, if late.contains i then Action.request (.mutator roots) else .park roots)
  let gathered ← (World.initial (main + 1)).run (members.map (·, .register))
  let final ← gathered.run ((List.replicate rounds (round main asking meet)).flatten ++ members.map (·, .unregister))
  return ⟨gathered.safepoint.registered, final⟩

end Rendezvous

end MarkSweep
