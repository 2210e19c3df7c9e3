/-!
# Causes and phases — why a collection is asked for, and how far it is

Both are also known by a number; a number that stands for none of them reads as the first.
-/
namespace MarkSweep

inductive Cause where
  | noGc
  | allocationFailure
  | explicit
  | metadataThreshold
  | metadataClearSoftRefs
  | heapInspection
  | heapDump
  deriving DecidableEq, Repr

namespace Cause

def number : Cause → Nat
  | noGc => 0
  | allocationFailure => 1
  | explicit => 2
  | metadataThreshold => 3
  | metadataClearSoftRefs => 4
  | heapInspection => 5
  | heapDump => 6

def ofNumber : Nat → Cause
  | 1 => allocationFailure
  | 2 => explicit
  | 3 => metadataThreshold
  | 4 => metadataClearSoftRefs
  | 5 => heapInspection
  | 6 => heapDump
  | _ => noGc

def name : Cause → String
  | noGc => "NoGc"
  | allocationFailure => "AllocationFailure"
  | explicit => "Explicit"
  | metadataThreshold => "MetadataThreshold"
  | metadataClearSoftRefs => "MetadataClearSoftRefs"
  | heapInspection => "HeapInspection"
  | heapDump => "HeapDump"

def title : Cause → String
  | noGc => "No GC"
  | allocationFailure => "Allocation Failure"
  | explicit => "Explicit GC"
  | metadataThreshold => "Metadata GC Threshold"
  | metadataClearSoftRefs => "Metadata GC Clear Soft References"
  | heapInspection => "Heap Inspection Initiated GC"
  | heapDump => "Heap Dump Initiated GC"

end Cause

inductive Phase where
  | idle
  | prologue
  | marking
  | sweeping
  | epilogue
  deriving DecidableEq, Repr

namespace Phase

def number : Phase → Nat
  | idle => 0
  | prologue => 1
  | marking => 2
  | sweeping => 3
  | epilogue => 4

def ofNumber : Nat → Phase
  | 1 => prologue
  | 2 => marking
  | 3 => sweeping
  | 4 => epilogue
  | _ => idle

def name : Phase → String
  | idle => "Idle"
  | prologue => "Prologue"
  | marking => "Marking"
  | sweeping => "Sweeping"
  | epilogue => "Epilogue"

end Phase

end MarkSweep
