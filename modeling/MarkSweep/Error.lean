/-!
# Errors — what the heap reports, and what stops it

A `HeapError` is a refusal the caller can handle; a `Fault` is a broken precondition, after which the operation has no
result.  A `Failure` is either of the two.

What an operation asserts of a value it is handed, such as the address to encode, the target of a reference to mark, the
bounds of a region or the size of a buffer, stops it when it fails, just as a sum outside the words does.  What it asserts
of structures the heap keeps itself is not tested a second time, it is proved: the granule is a power of two from
`Settings.validate` on, a sweep appends its chunks in order of address and none is empty, a walk ends at the end of the
region, and a buffer is installed only over an empty one.  The bits of a map and the slots of an object are changed by
total functions, and what is stated of these says for which addresses and places (`Bitmap.Update.Within`, `Layout.Fits`).
-/
namespace MarkSweep

/-- A broken precondition. -/
inductive Fault where
  | overflow
  | zeroDivisor
  /-- A granule that is not a power of two of at least one word. -/
  | badGranule
  /-- The storage handed to a bitmap cannot hold a bit for every granule. -/
  | storageTooSmall
  /-- An object claims more words than the heap has left behind its start. -/
  | objectPastEnd (start words : Nat)
  /-- A reference leads to an address outside the region. -/
  | outsideRegion (a : Nat)
  /-- No narrow reference stands for an address. -/
  | notEncodable (a : Nat)
  /-- A buffer would have to hold more words than the largest one has. -/
  | aboveLargestTlab (words : Nat)
  | notRegistered
  /-- The operation would have to wait for a thread that cannot run. -/
  | wouldBlock
  deriving DecidableEq, Repr

inductive HeapError where
  | invalidSettings (reason : String)
  | reserve (bytes : Nat)
  | commit (purpose : String) (bytes : Nat)
  | outOfMemory (requestedWords : Nat)
  | cycleAborted (reason : String)
  deriving DecidableEq, Repr

namespace HeapError

def message : HeapError → String
  | invalidSettings reason => s!"invalid heap settings: {reason}"
  | reserve bytes => s!"could not reserve {bytes} bytes of address space"
  | commit purpose bytes => s!"could not commit {bytes} bytes for {purpose}"
  | outOfMemory words => s!"out of memory: no free chunk of {words} words after collection"
  | cycleAborted reason => s!"collection cycle aborted: {reason}"

def isOutOfMemory : HeapError → Bool
  | outOfMemory _ => true
  | _ => false

/-- Whether the refusal passes on a failure of the operating system. -/
def hasSystemCause : HeapError → Bool
  | reserve _ | commit _ _ => true
  | _ => false

end HeapError

instance {σ : Type} : MonadLift (Except Fault) (EStateM Fault σ) where
  monadLift
    | .ok a => pure a
    | .error f => throw f

/-- Why an operation that can both be refused and stop did not finish. -/
inductive Failure where
  | error (e : HeapError)
  | fault (f : Fault)
  deriving DecidableEq, Repr

instance : MonadLift (Except Fault) (Except Failure) where
  monadLift := Except.mapError .fault

instance : MonadLift (Except HeapError) (Except Failure) where
  monadLift := Except.mapError .error

end MarkSweep
