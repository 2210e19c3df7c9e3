import MarkSweep.Object.Narrow
import MarkSweep.Record
/-!
# Roots — the references from outside the heap

Every source of roots belongs to a kind, and the sources are visited kind by kind in the order of `RootKind.order`,
within a kind in the order of their registration; the roots of stopped threads come with the last kind.  A source is a
fixed list of slots or a `HandleTable`, a growing list of wide slots that its owner updates by index.  One table can be
a source more than once.
-/
namespace MarkSweep

inductive RootKind where
  | codeCache
  | classLoaderGraph
  | globalHandles
  | threads
  deriving DecidableEq, Repr

namespace RootKind

def order : List RootKind := [codeCache, classLoaderGraph, globalHandles, threads]

def name : RootKind → String
  | codeCache => "CodeCache"
  | classLoaderGraph => "ClassLoaderGraph"
  | globalHandles => "GlobalHandles"
  | threads => "Threads"

def ofName? (s : String) : Option RootKind := order.find? (·.name == s)

end RootKind

inductive Reference where
  | wide (a : Address)
  | narrow (n : Nat)
  deriving DecidableEq, Repr

namespace Reference

def isWide : Reference → Bool
  | wide _ => true
  | narrow _ => false

def content : Reference → Nat
  | wide a => a
  | narrow n => n

def load (e : NarrowEncoding) : Reference → Except Fault Address
  | wide a => .ok a
  | narrow n => e.decode n

end Reference

/-- A list of wide slots and of narrow slots, the wide ones first. -/
structure RootSlots where
  wide : Array Address
  narrow : Array Nat
  deriving Repr

namespace RootSlots

def empty : RootSlots := ⟨#[], #[]⟩

instance : Inhabited RootSlots := ⟨empty⟩

def references (s : RootSlots) : List Reference := s.wide.toList.map .wide ++ s.narrow.toList.map .narrow

/-- The addresses referred to, null references left out. -/
def snapshot (s : RootSlots) (e : NarrowEncoding) : Except Fault (List Address) := do
  return (← s.references.mapM (·.load e)).filter (· != 0)

def erase (s : RootSlots) (e : NarrowEncoding) (a : Address) : RootSlots :=
  let other (r : Reference) : Bool := (r.load e).toOption != some a
  ⟨s.wide.filter fun w => other (.wide w), s.narrow.filter fun n => other (.narrow n)⟩

end RootSlots

abbrev TableId := Nat

/-- Wide slots that are handed out one by one and updated by index. -/
abbrev HandleTable := Array Address

inductive RootSource where
  | table (id : TableId)
  | slots (id : Nat)
  deriving DecidableEq, Repr

structure Roots where
  tables : Array HandleTable
  /-- The slots of the sources that are no tables. -/
  fixed : Array RootSlots
  sources : List (RootKind × RootSource)
  deriving Repr

namespace Roots

def empty : Roots := ⟨#[], #[], []⟩

instance : Inhabited Roots := ⟨empty⟩

/-- Makes a new empty table, which is no source yet. -/
def newTable (r : Roots) : TableId × Roots := (r.tables.size, { r with tables := r.tables.push #[] })

def table (r : Roots) (id : TableId) : HandleTable := r.tables[id]?.getD #[]

def setTable (r : Roots) (id : TableId) (t : HandleTable) : Roots := { r with tables := r.tables.setIfInBounds id t }

/-- Puts a new handle for `a` into a table; gives its index. -/
def push (r : Roots) (id : TableId) (a : Address) : Nat × Roots :=
  ((r.table id).size, { r with tables := r.tables.modify id (·.push a) })

def get (r : Roots) (id : TableId) (i : Nat) : Option Address := (r.table id)[i]?

/-- Points a handle at `a`; gives its previous target, or nothing where there is no such handle. -/
def set (r : Roots) (id : TableId) (i : Nat) (a : Address) : Option Address × Roots :=
  (r.get id i, { r with tables := r.tables.modify id (·.setIfInBounds i a) })

/-- Clears a handle, which stays in the table and refers to null. -/
def release (r : Roots) (id : TableId) (i : Nat) : Option Address × Roots := r.set id i 0

def clear (r : Roots) (id : TableId) : Roots := r.setTable id #[]

def registerTable (r : Roots) (kind : RootKind) (id : TableId) : Roots :=
  { r with sources := r.sources ++ [(kind, .table id)] }

def registerSlots (r : Roots) (kind : RootKind) (s : RootSlots) : Roots :=
  { r with fixed := r.fixed.push s, sources := r.sources ++ [(kind, .slots r.fixed.size)] }

def describe (r : Roots) : String :=
  let kinds := ", ".intercalate (r.sources.map (·.1.name))
  recordText "RootEnumerator" [("sources", "[" ++ kinds ++ "]")]

/-! ## Visits -/

section Visits

variable {σ : Type}

def references (r : Roots) : RootSource → List Reference
  | .table id => (r.table id).toList.map .wide
  | .slots id => (r.fixed[id]?.getD .empty).references

/-- What all root slots hold, in visiting order. -/
def enumerate (r : Roots) (threadRoots : List Address) : List Reference :=
  RootKind.order.flatMap fun kind =>
    (r.sources.filter (·.1 == kind)).flatMap (fun s => r.references s.2) ++
      if kind = .threads then threadRoots.map .wide else []

/-- Visits slots one after the other; `visit` sees what a slot holds and gives what the slot holds afterwards. -/
def visitSlots (visit : σ → Reference → σ × Nat) (width : Nat → Reference) (state : σ) (slots : Array Nat) :
    σ × Array Nat :=
  slots.foldl (fun (state, done) x =>
    let (state, x) := visit state (width x)
    (state, done.push x)) (state, #[])

def visitSource (visit : σ → Reference → σ × Nat) (state : σ) (r : Roots) : RootSource → σ × Roots
  | .table id =>
    let (state, t) := visitSlots visit .wide state (r.table id)
    (state, r.setTable id t)
  | .slots id =>
    let s := r.fixed[id]?.getD .empty
    let (state, wide) := visitSlots visit .wide state s.wide
    let (state, narrow) := visitSlots visit .narrow state s.narrow
    (state, { r with fixed := r.fixed.setIfInBounds id ⟨wide, narrow⟩ })

/-- Visits every root slot in visiting order and stores what `visit` gives. -/
def visit (visit : σ → Reference → σ × Nat) (state : σ) (r : Roots) (threadRoots : List Address) :
    σ × Roots × List Address :=
  RootKind.order.foldl (fun (state, r, threadRoots) kind =>
    let (state, r) := (r.sources.filter (·.1 == kind)).foldl
      (fun (state, r) s => visitSource visit state r s.2) (state, r)
    if kind = .threads then
      let (state, roots) := visitSlots visit .wide state threadRoots.toArray
      (state, r, roots.toList)
    else (state, r, threadRoots)) (state, r, threadRoots)

/-- Points every wide slot that refers to `old` at `new`. -/
def redirect (r : Roots) (old new : Address) (threadRoots : List Address) : Roots × List Address :=
  (visit (fun _ x => ((), if x = .wide old then new else x.content)) () r threadRoots).2

end Visits

end Roots

end MarkSweep
