import MarkSweep.Region
import MarkSweep.Memory
/-!
# Reservations — reserved address space, and the part of it that is backed by memory

A `Reservation` holds address space page by page; a page reads and writes only while it is backed, and a page that is
backed anew reads as zero.  A `CommittedSpace` is a reservation whose backed part is a prefix that only grows: what was
backed before keeps its words (`expandBy`).  Which sizes the system has address space for, and whether it backs
them, is its own answer and a parameter here.
-/
namespace MarkSweep

/-- A system with 47 bits of address space hands out no reservation of this many bytes or more. -/
def reservationLimit : Nat := 0x800000000000

/-- The sizes that such a system has address space for. -/
def belowLimit (bytes : Nat) : Bool := bytes < reservationLimit

abbrev PageRanges := List (Nat × Nat)

namespace PageRanges

/-- The pages without those from `lo` up to, but not including, `hi`. -/
def remove (pages : PageRanges) (lo hi : Nat) : PageRanges :=
  pages.flatMap fun (a, b) => [(a, min b lo), (max a hi, b)].filter fun (a, b) => decide (a < b)

def insert (pages : PageRanges) (lo hi : Nat) : PageRanges := (lo, hi) :: pages.remove lo hi

def count (pages : PageRanges) : Nat := pages.foldl (fun n (a, b) => n + (b - a)) 0

def has (pages : PageRanges) (page : Nat) : Bool := pages.any fun (a, b) => a ≤ page && page < b

end PageRanges

/-- Address space from `base` on, in whole pages. -/
structure Reservation where
  base : Address
  size : Nat
  backed : PageRanges
  memory : Memory

namespace Reservation

/-- Reserves `bytes` bytes at `base`, rounded up to whole pages and never less than one page, if the system has as many
`available`. -/
def reserve (base : Address) (bytes : Nat) (available : Nat → Bool := belowLimit) : Except Failure Reservation := do
  let size ← alignUp (max bytes 1) pageBytes
  if available size then
    return { base, size, backed := [], memory := .blank }
  else
    throw (.error (.reserve size))

def wordSize (r : Reservation) : Nat := r.size / wordBytes

def region (r : Reservation) : Region := ⟨r.base, r.base + r.wordSize * wordBytes⟩

/-- Backs the pages that hold the bytes `lo ≤ i < hi` with zeroed memory. -/
def back (r : Reservation) (lo hi : Nat) : Reservation :=
  let first := lo / pageBytes
  let last := (hi + (pageBytes - 1)) / pageBytes
  { r with
    backed := r.backed.insert first last
    memory := r.memory.zero (r.base + first * pageBytes) ((last - first) * (pageBytes / wordBytes)) }

/-- Backs the first `bytes` bytes.  The system refuses an empty range, and everything while it grants no memory. -/
def commit (r : Reservation) (granted : Bool) (bytes : Nat) : Option Reservation :=
  if granted ∧ bytes ≠ 0 then some (r.back 0 bytes) else none

def uncommit (r : Reservation) (bytes : Nat) : Option Reservation :=
  if bytes = 0 then none
  else some { r with backed := r.backed.remove 0 ((bytes + (pageBytes - 1)) / pageBytes) }

def holdsWord (r : Reservation) (i : Nat) : Bool := r.backed.has (i * wordBytes / pageBytes)

def peek (r : Reservation) (i : Nat) : Nat := r.memory.read (r.base + i * wordBytes)

def poke (r : Reservation) (i v : Nat) : Reservation :=
  { r with memory := r.memory.write (r.base + i * wordBytes) v }

end Reservation

structure CommittedSpace where
  reservation : Reservation
  committed : Nat

namespace CommittedSpace

/-- Backs `bytes` more bytes behind the committed ones, which keep their contents. -/
def expandBy (s : CommittedSpace) (granted : Bool) (bytes : Nat) : Except Failure CommittedSpace := do
  if bytes = 0 then
    return s
  let total ← checkedAdd s.committed bytes
  if s.reservation.size < total then
    throw (.error (.invalidSettings "commit request exceeds reserved space"))
  -- the system backs whole pages from a page bound on
  if granted ∧ s.committed % pageBytes = 0 then
    return { reservation := s.reservation.back s.committed total, committed := total }
  else
    throw (.error (.commit "heap" bytes))

def create (r : Reservation) (granted : Bool) (bytes : Nat) : Except Failure CommittedSpace :=
  expandBy ⟨r, 0⟩ granted bytes

def low (s : CommittedSpace) : Address := s.reservation.base

def high (s : CommittedSpace) : Address := s.reservation.base + s.committed

def region (s : CommittedSpace) : Region := ⟨s.low, s.high⟩

end CommittedSpace

end MarkSweep
