import MarkSweep.Heap.Request
import MarkSweep.Proofs.Run
/-!
# The heap lock is free between requests

No operation asks for the heap lock while it holds it: on a heap whose lock is free each one does what it does without a
lock, and lets the lock go in the end, also where a fault stops it (`Frees`).  So what is proved of operations without the
lock is true of requests (`Request.frees`).
-/
namespace MarkSweep

namespace Heap

/-- Stopping the world is to stop it, to run the operation, and to let everyone run on. -/
theorem stopTheWorld_eq {α : Type} (id : Option MutatorId) (op : List Address → HeapM α) :
    stopTheWorld id op = do
      let (r, roots) ← stop id
      let a ← op roots
      resume r
      return a := by
  funext h
  show (stopTheWorld id op).run h = EStateM.run _ h
  unfold stopTheWorld stop
  simp only [EStateM.run_bind, EStateM.run_get]
  cases hreq : h.requester id with
  | error f =>
    have hhalt : h.halt id = .error f := by rw [halt, hreq]; rfl
    simp only [hhalt, run_lift_error]
  | ok r =>
  cases hrequest : h.safepoint.request r with
  | error f =>
    have hhalt : h.halt id = .error f := by rw [halt, hreq]; simp only [bind, Except.bind, hrequest]
    simp only [hhalt, hrequest, run_lift_ok, run_lift_error]
  | ok raised =>
  obtain ⟨raised, s⟩ := raised
  cases raised with
  | false =>
    have hhalt : h.halt id = .error .wouldBlock := by rw [halt, hreq]; simp only [bind, Except.bind, hrequest]; rfl
    simp only [hhalt, hrequest, run_lift_ok, run_lift_error]
    rfl
  | true =>
  cases hpark : h.parkOthers id s with
  | error f =>
    have hhalt : h.halt id = .error f := by rw [halt, hreq]; simp only [bind, Except.bind, hrequest, hpark]; rfl
    simp only [hhalt, hrequest, run_lift_ok, run_lift_error, Bool.not_true, Bool.false_eq_true, if_false]
    simp only [EStateM.run_bind, hpark, run_lift_error]
  | ok s' =>
  cases hbegin : s'.begin? with
  | none =>
    have hhalt : h.halt id = .error .wouldBlock := by
      rw [halt, hreq]; simp only [bind, Except.bind, hrequest, hpark, hbegin]; rfl
    simp only [hhalt, hrequest, run_lift_ok, run_lift_error, Bool.not_true, Bool.false_eq_true, if_false]
    simp only [EStateM.run_bind, hpark, hbegin, run_lift_ok]
    rfl
  | some x =>
    have hhalt : h.halt id = .ok (r, x.1, x.2) := by
      rw [halt, hreq]; simp only [bind, Except.bind, hrequest, hpark, hbegin]; rfl
    simp only [hhalt, hrequest, run_lift_ok, Bool.not_true, Bool.false_eq_true, if_false]
    simp only [EStateM.run_bind, hpark, hbegin, run_lift_ok]
    rfl

/-! ## Two attempts -/

/-- Tries, asks for a cycle where that gave nothing, and tries once more. -/
def attemptTwice {α : Type} (id : Option MutatorId) (attempt : HeapM (Option α)) (refusal : HeapM HeapError) :
    HeapM (Except HeapError α) := do
  match ← attempt with
  | some a => return .ok a
  | none =>
    collectForAllocation id
    match ← attempt with
    | some a => return .ok a
    | none => return .error (← refusal)

/-- The refusal of an external thread's request. -/
def refuse (words : Nat) : HeapM HeapError := do return .outOfMemory (← (← get).adjust words)

/-- What claims words under the lock, as it is without a lock. -/
def claimOrCollect {α : Type} (words : Nat) (use : Address → HeapM α) : HeapM (Except HeapError α) := do
  if !(← get).space.canFit words then
    return .error (.outOfMemory words)
  attemptTwice none (claim words use) (refuse words)

/-- To claim words is to carve them, after a cycle where that is needed, and to make use of them. -/
theorem claimOrCollect_eq {α : Type} (words : Nat) (use : Address → HeapM α) : claimOrCollect words use = do
    match ← carveOrCollect words with
    | .error e => return .error e
    | .ok a => return .ok (← use a) := by
  unfold claimOrCollect carveOrCollect collectForAllocation attemptTwice claim refuse
  simp only [bind_assoc]
  refine bind_congr fun h => ?_
  cases h.space.canFit words with
  | false => rfl
  | true =>
  simp only [Bool.not_true, Bool.false_eq_true, if_false, bind_assoc]
  refine bind_congr fun a => ?_
  cases a with
  | some a => simp only [bind_assoc, pure_bind]
  | none =>
  simp only [collectForAllocation, bind_assoc, pure_bind]
  refine bind_congr fun _ => ?_
  refine bind_congr fun a => ?_
  cases a with
  | some a => simp only [bind_assoc, pure_bind]
  | none => simp only [bind_assoc, pure_bind]

theorem allocate_eq (words : Nat) : allocate words = claimOrCollect words (fillClaimed words) := by
  rw [claimOrCollect_eq]
  refine bind_congr fun r => ?_
  cases r with
  | error e => rfl
  | ok a => simp only [fillClaimed, bind_assoc, pure_bind]

theorem newTlab_eq (minWords requestedWords : Nat) : newTlab minWords requestedWords = (do
    let words ← (← get).tlabSizeFor minWords requestedWords
    claimOrCollect words (installNew words)) := by
  refine bind_congr fun h => bind_congr fun words => ?_
  rw [claimOrCollect_eq]
  refine bind_congr fun r => ?_
  cases r <;> rfl

theorem allocateFor_eq (id : MutatorId) (words : Nat) : allocateFor id words = (do
    let m ← (← get).mutator id
    if !(← get).space.canFit words then
      return .error (.outOfMemory words)
    let words ← (← get).adjust words
    match ← modifyGet (·.bump m.tlab words) with
    | some a => return .ok a
    | none => attemptTwice (some id) (refillOrCarve m words) (pure (.outOfMemory words))) := by
  refine bind_congr fun h => bind_congr fun m => bind_congr fun h => ?_
  cases h.space.canFit words with
  | false => rfl
  | true =>
  refine bind_congr fun h => bind_congr fun words => bind_congr fun a => ?_
  cases a with
  | some a => rfl
  | none =>
  refine bind_congr fun a => ?_
  cases a with
  | some a => rfl
  | none =>
  refine bind_congr fun _ => bind_congr fun a => ?_
  cases a <;> rfl

end Heap

/-- The same result on a heap with a free lock. -/
def freed {α : Type} : EStateM.Result Fault Heap α → EStateM.Result Fault Guarded α
  | .ok a h => .ok a ⟨h, false⟩
  | .error f h => .error f ⟨h, false⟩

/-- Where the lock is free, `X` does what `x` does, and the lock is free afterwards. -/
def Frees {α : Type} (X : GuardedM α) (x : HeapM α) : Prop := ∀ h, X.run ⟨h, false⟩ = freed (x.run h)

namespace Frees

variable {α β : Type}

theorem pure (a : α) : Frees (pure a) (pure a) := fun _ => rfl

theorem lift (x : Except Fault α) : Frees (liftM x) (liftM x) := fun _ => by cases x <;> rfl

theorem bind {X : GuardedM α} {x : HeapM α} {F : α → GuardedM β} {f : α → HeapM β} (hx : Frees X x)
    (hf : ∀ a, Frees (F a) (f a)) : Frees (X >>= F) (x >>= f) := by
  intro h
  rw [EStateM.run_bind, EStateM.run_bind, hx h]
  cases x.run h with
  | ok a h' => exact hf a h'
  | error e h' => rfl

theorem get_bind {F : Guarded → GuardedM β} {f : Heap → HeapM β} (hf : ∀ h, Frees (F ⟨h, false⟩) (f h)) :
    Frees (get >>= F) (get >>= f) := fun h => hf h h

theorem unlocked (op : HeapM α) : Frees (Guarded.unlocked op) op := by
  intro h
  show Guarded.unlocked op ⟨h, false⟩ = freed (op.run h)
  unfold Guarded.unlocked
  cases op.run h <;> rfl

theorem locking (op : HeapM α) : Frees (Guarded.locking op) op := by
  intro h
  have hop : Guarded.unlocked op ⟨h, true⟩ = match op.run h with
    | .ok a heap => EStateM.Result.ok a ⟨heap, true⟩
    | .error f heap => EStateM.Result.error f ⟨heap, true⟩ := rfl
  unfold Guarded.locking
  simp only [EStateM.run_bind, EStateM.run_get, Bool.false_eq_true, if_false, EStateM.run_set]
  cases hrun : op.run h with
  | ok a heap =>
    rw [hrun] at hop
    simp only [tryFinally, tryFinally', Functor.map, EStateM.map, EStateM.run, hop]
    rfl
  | error f heap =>
    rw [hrun] at hop
    simp only [tryFinally, tryFinally', Functor.map, EStateM.map, EStateM.run, hop]
    rfl

end Frees

namespace Guarded

variable {α : Type}

theorem stopTheWorld_frees (id : Option MutatorId) (op : List Address → HeapM α) :
    Frees (stopTheWorld id op) (Heap.stopTheWorld id op) := by
  rw [Heap.stopTheWorld_eq]
  refine .bind (.unlocked _) fun (r, roots) => ?_
  exact .bind (.locking _) fun a => .bind (.unlocked _) fun _ => .pure a

theorem iterate_frees (id : Option MutatorId) : Frees (iterate id) (Heap.iterate id) := stopTheWorld_frees id _

theorem dropTlab_frees (id : TlabId) : Frees (dropTlab id) (modify (·.dropTlab id)) := .locking _

/-! ## Collections -/

theorem collectNow_frees (id : Option MutatorId) (cause : Cause) : Frees (collectNow id cause) (Heap.collectNow id cause) :=
  .bind (.unlocked _) fun _ => stopTheWorld_frees id _

theorem collect_frees (id : Option MutatorId) (cause : Cause) : Frees (collect id cause) (Heap.collect id cause) := by
  cases cause with
  | allocationFailure => exact .bind (collectNow_frees id _) fun _ => .pure _
  | explicit => exact .bind (collectNow_frees id _) fun _ => .pure _
  | metadataThreshold | metadataClearSoftRefs | noGc | heapInspection | heapDump =>
    unfold collect
    exact .unlocked _

theorem collectFull_frees : Frees collectFull Heap.collectFull := .get_bind fun _ => collect_frees none _

theorem collectTogether_frees (cause : Cause) : Frees (collectTogether cause) (Heap.collectTogether cause) := by
  refine .get_bind fun h => ?_
  cases h.mutators with
  | nil => exact .pure _
  | cons leader parked => exact .bind (collectNow_frees _ cause) fun _ => .pure _

/-! ## Allocations -/

/-- Two attempts are two sections, with the sections of a cycle between them. -/
theorem attemptTwice_frees {X : GuardedM (Option α)} {x : HeapM (Option α)} {F G : Option α → GuardedM (Except HeapError α)}
    {refusal : HeapM HeapError} (id : Option MutatorId) (hx : Frees X x) (hsome : ∀ a, F (some a) = pure (.ok a))
    (hnone : F none = do let _ ← collectNow id .allocationFailure; X >>= G) (hagain : ∀ a, G (some a) = pure (.ok a))
    (hrefusal : Frees (G none) do return .error (← refusal)) : Frees (X >>= F) (Heap.attemptTwice id x refusal) := by
  refine .bind hx fun a => ?_
  cases a with
  | some a => rw [hsome]; exact .pure _
  | none =>
  rw [hnone]
  unfold Heap.collectForAllocation
  rw [bind_assoc]
  refine .bind (collectNow_frees id _) fun _ => ?_
  rw [pure_bind]
  refine .bind hx fun a => ?_
  cases a with
  | some a => rw [hagain]; exact .pure _
  | none => exact hrefusal

theorem claimOrCollect_frees (words : Nat) (use : Address → HeapM α) :
    Frees (claimOrCollect words use) (Heap.claimOrCollect words use) := by
  refine .get_bind fun h => ?_
  cases h.space.canFit words with
  | false => exact .pure _
  | true =>
  refine attemptTwice_frees none (.locking _) (fun _ => rfl) rfl (fun _ => rfl) ?_
  unfold Heap.refuse
  simp only [bind_assoc, pure_bind]
  exact .get_bind fun h => .bind (.lift _) fun _ => .pure _

theorem allocate_frees (words : Nat) : Frees (allocate words) (Heap.allocate words) := by
  rw [Heap.allocate_eq]
  exact claimOrCollect_frees words _

theorem newTlab_frees (minWords requestedWords : Nat) :
    Frees (newTlab minWords requestedWords) (Heap.newTlab minWords requestedWords) := by
  rw [Heap.newTlab_eq]
  exact .get_bind fun h => .bind (.lift _) fun words => claimOrCollect_frees words _

theorem allocateFor_frees (id : MutatorId) (words : Nat) : Frees (allocateFor id words) (Heap.allocateFor id words) := by
  rw [Heap.allocateFor_eq]
  refine .get_bind fun h => .bind (.lift _) fun m => .get_bind fun h => ?_
  cases h.space.canFit words with
  | false => exact .pure _
  | true =>
  refine .get_bind fun h => .bind (.lift _) fun w => .bind (.unlocked _) fun a => ?_
  cases a with
  | some a => exact .pure _
  | none =>
    exact attemptTwice_frees (some id) (.unlocked _) (fun _ => rfl) rfl (fun _ => rfl) (.pure _)

end Guarded

/-! ## Requests -/

namespace Request

/-- A request without the heap lock. -/
def op : Request → HeapM Answer
  | allocate words => return .granted (← Heap.allocate words)
  | newTlab minWords requestedWords => return .buffer (← Heap.newTlab minWords requestedWords)
  | allocateIn id words => return .found (← Heap.allocateIn id words)
  | dropTlab id => do
    modify (·.dropTlab id)
    return .done
  | carve words => return .found (← Heap.carve words)
  | newMutator => return .mutator (← Heap.newMutator)
  | allocateFor id words => return .granted (← Heap.allocateFor id words)
  | dropMutator id => do
    Heap.dropMutator id
    return .done
  | collect id cause => return .collected (← Heap.collect id cause)
  | collectFull => return .collected (← Heap.collectFull)
  | collectTogether cause _ => return .together (← Heap.collectTogether cause)
  | iterate id => return .objects (← Heap.iterate id)
  | look => return .seen (← get).view
  | setRef obj i target => do
    Heap.setRef obj i target
    return .done
  | write f => do
    modify fun h => { h with memory := f h.memory }
    return .done
  | reroot f => do
    modify fun h => { h with roots := f h.roots }
    return .done
  | hold id f => do
    modify (·.updateRoots id f)
    return .done
  | permit granted => do
    modify ({ · with granted })
    return .done

theorem frees (r : Request) : Frees r.run r.op := by
  cases r with
  | allocate words => exact (Guarded.allocate_frees words).bind fun _ => .pure _
  | newTlab minWords requestedWords => exact (Guarded.newTlab_frees minWords requestedWords).bind fun _ => .pure _
  | dropTlab id => exact (Guarded.dropTlab_frees id).bind fun _ => .pure _
  | allocateFor id words => exact (Guarded.allocateFor_frees id words).bind fun _ => .pure _
  | collect id cause => exact (Guarded.collect_frees id cause).bind fun _ => .pure _
  | collectFull => exact Guarded.collectFull_frees.bind fun _ => .pure _
  | collectTogether cause cycles => exact (Guarded.collectTogether_frees cause).bind fun _ => .pure _
  | iterate id => exact (Guarded.iterate_frees id).bind fun _ => .pure _
  | look => exact .get_bind fun h => .pure _
  | allocateIn | carve | newMutator | dropMutator | setRef | write | reroot | hold | permit =>
    exact .bind (.unlocked _) fun _ => .pure _

/-- **A request that finds the heap lock free leaves it free**, and is answered as without the lock. -/
theorem serve_free (r : Request) (h : Heap) : r.serve ⟨h, false⟩ = match r.op.run h with
    | .ok a h => (.ok a, ⟨h, false⟩)
    | .error f h => (.error f, ⟨h, false⟩) := by
  unfold serve
  rw [r.frees h]
  cases r.op.run h <;> rfl

end Request

end MarkSweep
