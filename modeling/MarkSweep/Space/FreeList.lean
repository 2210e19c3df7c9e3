import MarkSweep.Address
/-!
# Free list — chunks of free words in address order

The chunks form a singly linked list whose nodes live in an arena and name each other by arena index.  A node that
leaves the list leaves its index for the next one.  `chunks` is what the list means: the chunks in list order.
-/
namespace MarkSweep

structure Chunk where
  start : Address
  words : Nat
  deriving DecidableEq, Repr, Inhabited

namespace Chunk

def stop (c : Chunk) : Except Fault Address := c.start.addWords c.words

end Chunk

/-- A chunk and the arena index of the one behind it. -/
structure FreeNode where
  chunk : Chunk
  next : Option Nat
  deriving Repr, Inhabited

structure FreeList where
  nodes : Array FreeNode
  /-- Arena indices that are not in use, the next one to be used first. -/
  vacant : List Nat
  head : Option Nat
  tail : Option Nat
  length : Nat
  freeWords : Nat
  deriving Repr

namespace FreeList

def empty : FreeList := ⟨#[], [], none, none, 0, 0⟩

instance : Inhabited FreeList := ⟨empty⟩

def isEmpty (l : FreeList) : Bool := l.length == 0

/-- The chunks from the node at `cursor` on, at most `n` of them. -/
def chunksFrom (nodes : Array FreeNode) : Nat → Option Nat → List Chunk
  | 0, _ => []
  | _, none => []
  | n + 1, some i =>
    match nodes[i]? with
    | none => []
    | some node => node.chunk :: chunksFrom nodes n node.next

def chunks (l : FreeList) : List Chunk := chunksFrom l.nodes l.nodes.size l.head

def place (l : FreeList) (node : FreeNode) : Nat × FreeList :=
  match l.vacant with
  | i :: rest => (i, { l with nodes := l.nodes.setIfInBounds i node, vacant := rest })
  | [] => (l.nodes.size, { l with nodes := l.nodes.push node })

/-- Links a chunk behind the last one, which it must not start before or overlap; gives its arena index. -/
def push (l : FreeList) (c : Chunk) : Nat × FreeList :=
  let (i, l) := l.place ⟨c, none⟩
  let l := match l.tail with
    | none => { l with head := some i }
    | some t => { l with nodes := l.nodes.modify t ({ · with next := some i }) }
  (i, { l with tail := some i, length := l.length + 1, freeWords := l.freeWords + c.words })

/-- As `push`, with the sum of the free words checked.  The chunk is linked even where the sum has no place. -/
def append (l : FreeList) (c : Chunk) : Except Fault Nat × FreeList :=
  let (i, l') := l.push c
  if l'.freeWords < addressLimit then (.ok i, l') else (.error .overflow, { l' with freeWords := l.freeWords })

def clear (l : FreeList) : FreeList :=
  { nodes := l.nodes, vacant := List.range l.nodes.size, head := none, tail := none, length := 0, freeWords := 0 }

/-- The first node from `cursor` on with at least `words` words, and the node before it. -/
def findFit (nodes : Array FreeNode) (words : Nat) : Nat → Option Nat → Option Nat → Option (Option Nat × Nat)
  | 0, _, _ => none
  | _, _, none => none
  | n + 1, prev, some i =>
    match nodes[i]? with
    | none => none
    | some node => if words ≤ node.chunk.words then some (prev, i) else findFit nodes words n (some i) node.next

/-- Takes node `i`, which follows `prev`, out of the list. -/
def unlink (l : FreeList) (prev : Option Nat) (i : Nat) : FreeList :=
  let next := l.nodes[i]?.bind (·.next)
  let l := match prev with
    | none => { l with head := next }
    | some p => { l with nodes := l.nodes.modify p ({ · with next := next }) }
  { l with
    tail := if l.tail = some i then prev else l.tail
    vacant := i :: l.vacant
    length := l.length - 1 }

def debit (l : FreeList) (words : Nat) (start : Address) : Except Fault (Option Address) × FreeList :=
  if words ≤ l.freeWords then (.ok (some start), { l with freeWords := l.freeWords - words })
  else (.error .overflow, l)

/-- First fit: carves `words` words from the low end of the first chunk that is large enough, and unlinks the chunk
where nothing of it is left.  Gives the start of the carved words, or nothing where no chunk is large enough. -/
def take (l : FreeList) (words : Nat) : Except Fault (Option Address) × FreeList :=
  match findFit l.nodes words l.nodes.size none l.head with
  | none => (.ok none, l)
  | some (prev, i) =>
    let c := (l.nodes[i]?.getD default).chunk
    if c.words = words then (l.unlink prev i).debit words c.start
    else
      match c.start.addWords words with
      | .error f => (.error f, l)
      | .ok rest =>
        { l with nodes := l.nodes.modify i ({ · with chunk := ⟨rest, c.words - words⟩ }) }.debit words c.start

end FreeList

end MarkSweep
