import Cdrc.Lib.Runs
import Cdrc.Lib.History
import Cdrc.Lib.Threads
import Cdrc.Lib.Units
import Cdrc.Lib.Tasks
import Cdrc.Lib.Objects
import Cdrc.Lib.Paths
import Cdrc.Lib.Progress
import Cdrc.StickyCounter.Word
import Cdrc.StickyCounter.Calls
import Cdrc.StickyCounter.Linearization
import Cdrc.StickyCounter.Stuck
import Cdrc.CountedObject.LifeCycle
import Cdrc.CountedObject.Accesses
import Cdrc.MemoryManager.Allocations
import Cdrc.Hyaline.Retire
import Cdrc.Hyaline.Tracker
import Cdrc.Hyaline.TrackerSafety
import Cdrc.Hyaline.Batches
import Cdrc.Hyaline.Guards
import Cdrc.Hyaline.Grace
import Cdrc.Hyaline.Pointers
import Cdrc.Hyaline.PointerSafety
import Cdrc.MarkedPtr.Snapshot
import Cdrc.MarkedPtr.Atomic
import Cdrc.MarkedPtr.Progress
import Cdrc.AtomicWeakPtr.GetSnapshot
import Cdrc.AcquireRetire.Retire
import Cdrc.AcquireRetire.Pass
import Cdrc.AcquireRetire.EpochPass
import Cdrc.AcquireRetire.Garbage
import Cdrc.AcquireRetire.Reservation
import Cdrc.Drain.Eject
import Cdrc.Drain.Confluence
import Cdrc.Acquire.Load
import Cdrc.AtomicWeakPtr.CompareExchange
import Cdrc.Acquire.Agreement
import Cdrc.AtomicStack.Code
import Cdrc.AtomicStack.Linearizability
import Cdrc.AtomicStack.Progress
import Cdrc.AtomicStack.Readers
import Cdrc.AtomicQueue.Code
import Cdrc.AtomicQueue.Invariant
import Cdrc.AtomicQueue.Steps
import Cdrc.AtomicQueue.Linearizability
import Cdrc.AtomicQueue.Progress
import Cdrc.LinkedList.Code
import Cdrc.LinkedList.Invariant
import Cdrc.LinkedList.Steps
import Cdrc.Smr.State
import Cdrc.Smr.Actions
import Cdrc.Smr.Code
import Cdrc.Smr.Invariant
import Cdrc.Smr.Tokens
import Cdrc.Smr.Moves
import Cdrc.Smr.Counters
import Cdrc.Smr.Increments
import Cdrc.Smr.Locations
import Cdrc.Smr.Releases
import Cdrc.Smr.Ejects
import Cdrc.Smr.Disposal
import Cdrc.Smr.Passes
import Cdrc.Smr.Readers
import Cdrc.Smr.Frames
import Cdrc.Smr.Specs
import Cdrc.Smr.Operations
import Cdrc.Smr.Safety
import Cdrc.Smr.Conservation
import Cdrc.RcPtr.Assignment
import Cdrc.Drain.Loops
import Cdrc.LinkedList.Sequential
import Cdrc.LinkedList.Linearizability
import Cdrc.SnapshotPtr.Slots
import Cdrc.ThreadId.Registry
import Cdrc.SortedUnorderedMap.Code
import Cdrc.SortedUnorderedMap.Invariant
import Cdrc.SortedUnorderedMap.Steps
import Cdrc.SortedUnorderedMap.Linearizability
import Cdrc.SortedUnorderedMap.Quiescence
