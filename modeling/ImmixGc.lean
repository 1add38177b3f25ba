import ImmixGc.Source.Immix
import ImmixGc.Guarantees.Tracing
import ImmixGc.Guarantees.AllocatorRegistry
import ImmixGc.Guarantees.FinalizerTable
import ImmixGc.Guarantees.Rehashing
import ImmixGc.Guarantees.Configuration
import ImmixGc.Guarantees.ReentrantFinalizers
import ImmixGc.Guarantees.LargeAllocation
import ImmixGc.Guarantees.BlockSearch
import ImmixGc.Guarantees.ChunkSweep
import ImmixGc.Guarantees.Reallocation
import ImmixGc.Guarantees.BlockOwnership
import ImmixGc.Guarantees.SmallSafety
import ImmixGc.Guarantees.CursorInvariant
import ImmixGc.Guarantees.HeapObjects
import ImmixGc.Guarantees.CollectionSafety
import ImmixGc.Guarantees.HeapInvariants
import ImmixGc.Guarantees.DataPreservation
import ImmixGc.Guarantees.HeapUsage
import ImmixGc.Guarantees.FinalizerRuns
import ImmixGc.Guarantees.CollectionEnds
import ImmixGc.Guarantees.AllocationEnds
import ImmixGc.Guarantees.CallEnds
