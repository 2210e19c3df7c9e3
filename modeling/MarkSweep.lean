import MarkSweep.Heap.Burst
import MarkSweep.Main
import MarkSweep.Proofs.Bitmap.Search
import MarkSweep.Proofs.Bitmap.Scan
import MarkSweep.Proofs.Bitmap.Sets
import MarkSweep.Proofs.FreeList
import MarkSweep.Proofs.FreeList.Refinement
import MarkSweep.Proofs.Heap.Owners
import MarkSweep.Proofs.Heap.Buffers
import MarkSweep.Proofs.Heap.BufferSizes
import MarkSweep.Proofs.Heap.Requests
import MarkSweep.Proofs.Reservation
import MarkSweep.Proofs.Heap.Creation
import MarkSweep.Safepoint.World
import MarkSweep.Proofs.Bitmap.Update
import MarkSweep.Proofs.NarrowReferences
import MarkSweep.Proofs.Session
import MarkSweep.Proofs.Session.Invariant
import MarkSweep.Proofs.Session.Advance
import MarkSweep.Proofs.Session.Writes
import MarkSweep.Proofs.Session.Steps
import MarkSweep.Proofs.MaximalRuns
import MarkSweep.Proofs.Session.Exactness
import MarkSweep.Proofs.Session.Preservation
import MarkSweep.Proofs.Session.Parsability
import MarkSweep.Proofs.Space.Evolution
import MarkSweep.Proofs.Safepoint.Sections
import MarkSweep.Proofs.Safepoint.Counts
import MarkSweep.Proofs.Safepoint.Safety
import MarkSweep.Proofs.Safepoint.Snapshots
import MarkSweep.Proofs.Safepoint.Epochs
import MarkSweep.Proofs.Session.Headers
import MarkSweep.Proofs.Space.Totality
import MarkSweep.Proofs.Space.SweepExact
import MarkSweep.Proofs.Marking.Exact
import MarkSweep.Proofs.Workload.Outcome
import MarkSweep.Proofs.Session.Retry
import MarkSweep.Proofs.Bitmap.Storage
import MarkSweep.Proofs.Workload.Sizes
import MarkSweep.Proofs.Session.Iteration
import MarkSweep.Proofs.Session.Interleaving
import MarkSweep.Proofs.Object.Slots
import MarkSweep.Proofs.Roots.Enumeration
