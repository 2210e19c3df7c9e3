import MarkSweep.Heap.Allocation
import MarkSweep.Proofs.Heap.Sound
import Mathlib.Logic.Basic
/-!
# Sessions — runs of heap operations by a program that keeps the rules

A `Session` is a heap together with what its program knows: the objects it was granted and no cycle has reclaimed, what
it wrote to them, and which words were handed out since.  `Step` has every operation of the heap and every write of the
program; its premises are the rules the program keeps, and `Reached` is any order of any number of steps.

The rules: an object has the size that was asked for, a mutator formats it at once and an external thread when it likes,
the program writes inside its objects only, and every slot and every root holds null or an object.
-/
namespace MarkSweep

/-- How the program formats an object: with `refs` references, wide or narrow ones. -/
structure Layout where
  refs : Nat
  narrow : Bool

namespace Layout

def flags (l : Layout) : Nat := if l.narrow then Header.narrowFlag else 0

/-- The header and the references have a place in `words` words. -/
def Fits (l : Layout) (words : Nat) : Prop := l.refs < Header.refsLimit ∧ Object.leastWords l.refs l.narrow ≤ words

/-- Formats an object with null references. -/
def format (l : Layout) (obj : Address) (words : Nat) (m : Memory) : Memory :=
  if l.narrow then Object.formatNarrow m obj words l.refs else Object.format m obj words l.refs

/-- Points reference `i` of an object at `target`, whose narrow reference is `n`. -/
def store (l : Layout) (obj : Address) (i : Nat) (target : Address) (n : Nat) (m : Memory) : Memory :=
  if l.narrow then Object.setNarrowRef m obj i n else Object.setRef m obj i target

end Layout

/-- Words that were granted as an object. -/
structure Grant where
  start : Address
  words : Nat
  /-- Nothing while the object is the filler it was granted as. -/
  layout : Option Layout
  /-- How many ranges had been handed out when the object was granted. -/
  since : Nat

namespace Grant

/-- The words of the object that hold neither its header nor its references begin here. -/
def payload (o : Grant) : Nat :=
  match o.layout with
  | none => 1
  | some l => Object.leastWords l.refs l.narrow

end Grant

structure Session where
  heap : Heap
  /-- The objects that every cycle since their allocation found reachable. -/
  objects : List Grant
  /-- The buffers of external threads that were not dropped. -/
  externals : List TlabId
  /-- What was last written to every word, by the program or, where it has not written yet, with the grant. -/
  shadow : Memory
  /-- The ranges that were handed out, as an object or to a buffer. -/
  handed : List Region

namespace Session

/-- A program that has not done anything yet. -/
def start (h : Heap) : Session := ⟨h, [], [], h.memory, []⟩

/-! ## What the rules speak of -/

def IsObject (s : Session) (a : Address) : Prop := ∃ o ∈ s.objects, o.start = a

/-- A reference to null or to an object. -/
def Refers (s : Session) (r : Reference) : Prop := ∃ a, r.load s.heap.encoding = .ok a ∧ (a = 0 ∨ s.IsObject a)

/-- An external thread, or a registered mutator. -/
def Knows (s : Session) (id : Option MutatorId) : Prop := ∀ i, id = some i → ∃ m ∈ s.heap.mutators, m.id = i

/-- The bytes that an object of `words` words is granted. -/
def extent (s : Session) (words : Nat) : Nat := s.heap.space.granulesFor words * s.heap.space.granuleBytes

/-! ## What operations leave -/

def installed (r r' : TlabRegistry) : List Region :=
  ((List.range r'.buffers.size).filter fun id => (r.get id).refills < (r'.get id).refills).map fun id =>
    ⟨(r'.get id).start, (r'.get id).stop⟩

open Classical in
/-- The objects left by an operation from `h` to `h'`: a cycle that completes reclaims what no reference leads to. -/
noncomputable def left (h h' : Heap) (objects : List Grant) : List Grant :=
  if h'.collections = h.collections then objects else objects.filter fun o => decide (h.Live o.start)

noncomputable def after (s : Session) (h' : Heap) : Session :=
  { s with
    heap := h'
    objects := left s.heap h' s.objects
    handed := s.handed ++ installed s.heap.tlabs h'.tlabs }

/-- An operation left heap `h'` and granted an object at `a`, which `write` formats. -/
noncomputable def granted (s : Session) (h' : Heap) (a : Address) (words : Nat) (layout : Option Layout)
    (write : Memory → Memory) : Session :=
  let handed := s.handed ++ installed s.heap.tlabs h'.tlabs ++ [⟨a, a + s.extent words⟩]
  { s with
    heap := h'
    objects := left s.heap h' s.objects ++ [⟨a, words, layout, handed.length⟩]
    shadow := write s.shadow
    handed }

/-- The program writes to an object. -/
def write (s : Session) (f : Memory → Memory) : Session :=
  { s with heap := { s.heap with memory := f s.heap.memory }, shadow := f s.shadow }

/-- An object that was granted as a filler comes as one of whole granules. -/
def filler (s : Session) (a : Address) (words : Nat) (m : Memory) : Memory :=
  Object.fill m a (s.heap.space.granulesFor words * s.heap.space.granuleWords)

/-- The program has formatted an object. -/
def relaid (objects : List Grant) (a : Address) (l : Layout) : List Grant :=
  objects.map fun o => if o.start = a then { o with layout := some l } else o

/-! ## Steps -/

/-- One operation of the heap, or one write of the program. -/
inductive Step (s : Session) : Session → Prop
  -- external threads
  | allocate {words : Nat} {a : Address} {h' : Heap} (run : (Heap.allocate words).run s.heap = .ok (.ok a) h') :
      Step s (s.granted h' a words none (s.filler a words))
  | allocateRefused {words : Nat} {e : HeapError} {h' : Heap} (run : (Heap.allocate words).run s.heap = .ok (.error e) h') :
      Step s (s.after h')
  | newTlab {min requested : Nat} {id : TlabId} {h' : Heap}
      (run : (Heap.newTlab min requested).run s.heap = .ok (.ok id) h') :
      Step s { s.after h' with externals := s.externals ++ [id] }
  | newTlabRefused {min requested : Nat} {e : HeapError} {h' : Heap}
      (run : (Heap.newTlab min requested).run s.heap = .ok (.error e) h') : Step s (s.after h')
  | allocateIn {id : TlabId} {words : Nat} {a : Address} {h' : Heap} (known : id ∈ s.externals)
      (run : (Heap.allocateIn id words).run s.heap = .ok (some a) h') :
      Step s (s.granted h' a words none (s.filler a words))
  | allocateInRefused {id : TlabId} {words : Nat} {h' : Heap} (known : id ∈ s.externals)
      (run : (Heap.allocateIn id words).run s.heap = .ok none h') : Step s (s.after h')
  | dropTlab {id : TlabId} (known : id ∈ s.externals) :
      Step s { s.after (s.heap.dropTlab id) with externals := s.externals.filter (· != id) }
  -- mutators
  | newMutator {i : MutatorId} {h' : Heap} (run : Heap.newMutator.run s.heap = .ok i h') : Step s (s.after h')
  | allocateFor {i : MutatorId} {words : Nat} {l : Layout} {a : Address} {h' : Heap} (known : s.Knows (some i))
      (run : (Heap.allocateFor i words).run s.heap = .ok (.ok a) h') (fits : l.Fits words) :
      Step s (s.granted { h' with memory := l.format a words h'.memory } a words (some l) (l.format a words))
  | allocateForRefused {i : MutatorId} {words : Nat} {e : HeapError} {h' : Heap} (known : s.Knows (some i))
      (run : (Heap.allocateFor i words).run s.heap = .ok (.error e) h') : Step s (s.after h')
  | dropMutator {i : MutatorId} {h' : Heap} (known : s.Knows (some i))
      (run : (Heap.dropMutator i).run s.heap = .ok () h') : Step s (s.after h')
  -- operations of either
  | collect {id : Option MutatorId} {cause : Cause} {r : Except HeapError Unit} {h' : Heap} (known : s.Knows id)
      (run : (Heap.collect id cause).run s.heap = .ok r h') : Step s (s.after h')
  | collectFull {r : Except HeapError Unit} {h' : Heap} (run : Heap.collectFull.run s.heap = .ok r h') : Step s (s.after h')
  | iterate {id : Option MutatorId} {objects : List Address} {h' : Heap} (known : s.Knows id)
      (run : (Heap.iterate id).run s.heap = .ok objects h') : Step s (s.after h')
  -- writes of the program
  | format {o : Grant} {l : Layout} (mem : o ∈ s.objects) (fits : l.Fits o.words) :
      Step s { s.write (l.format o.start o.words) with objects := relaid s.objects o.start l }
  | store {o : Grant} {l : Layout} {j n : Nat} {target : Address} (mem : o ∈ s.objects) (layout : o.layout = some l)
      (index : j < l.refs) (known : target = 0 ∨ s.IsObject target) (encode : s.heap.encoding.encode target = .ok n) :
      Step s (s.write (l.store o.start j target n))
  | poke {o : Grant} {j v : Nat} (mem : o ∈ s.objects) (low : o.payload ≤ j) (high : j < o.words) :
      Step s (s.write fun m => m.write (o.start + j * wordBytes) v)
  | reroot {roots : Roots} (refers : ∀ src ∈ roots.sources, ∀ r ∈ roots.references src.2, s.Refers r) :
      Step s { s with heap := { s.heap with roots } }
  | hold {i : MutatorId} {slots : RootSlots} (refers : ∀ r ∈ slots.references, s.Refers r) :
      Step s { s with heap := s.heap.updateRoots i fun _ => slots }
  -- the system
  | permit (granted : Bool) : Step s { s with heap := { s.heap with granted } }

/-- What a program reaches on a heap of fewer than 2^32 words. -/
inductive Reached : Session → Prop
  | create {settings : Settings} {base : Address} {granted hook : Bool} {available : Nat → Bool} {h : Heap}
      (run : Heap.create settings base granted hook available = .ok h) (page : pageBytes ∣ base) (base_ne : base ≠ 0)
      (high : h.high < addressLimit) (small : h.space.region.wordSize < 2 ^ 32) : Reached (start h)
  | step {s s' : Session} (reached : Reached s) (next : Step s s') : Reached s'

end Session
end MarkSweep
