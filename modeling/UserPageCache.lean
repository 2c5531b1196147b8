import UserPageCache.Lib.Linked
import UserPageCache.SsdCache.WorkQueue
import UserPageCache.SsdCache.Entry
import UserPageCache.SsdCache.HashTable
import UserPageCache.SsdCache.Mapping
import UserPageCache.SsdCache.Entry.Theorems
import UserPageCache.SsdCache.HashTable.Theorems
import UserPageCache.SsdCache.Mapping.Refinement
import UserPageCache.SsdCache.Table.Theorems
import UserPageCache.SsdCache.Mapping.Theorems
import UserPageCache.Lib.System
import UserPageCache.SsdCache.Interleave
import UserPageCache.SsdCache.Interleave.Theorems
import UserPageCache.SsdCache.Accounting
import UserPageCache.Lib.Bytes
import UserPageCache.SsdCache.Discard
import UserPageCache.SsdCache.World
import UserPageCache.SsdCache.Migration
import UserPageCache.SsdCache.Target
import UserPageCache.SsdCache.Coherence
import UserPageCache.SsdCache.Coherence.Effects
import UserPageCache.SsdCache.Coherence.Theorems
import UserPageCache.SsdCache.Coherence.Worker
import UserPageCache.SsdCache.Sequential
import UserPageCache.SsdCache.Frame
import UserPageCache.SsdCache.Publish
import UserPageCache.SsdCache.Publish.Theorems
import UserPageCache.SsdCache.Acknowledged
import UserPageCache.PageCache.Bypass
import UserPageCache.PageCache.Correspondence
import UserPageCache.PageCache.Eviction
import UserPageCache.PageCache.Loss
import UserPageCache.PageCache.ReadOnly
import UserPageCache.PageCache.Recency
import UserPageCache.SsdCache.Delivery
import UserPageCache.SsdCache.Filled
import UserPageCache.SsdCache.Rewrite
import UserPageCache.SsdCache.Undo
import UserPageCache.SsdCache.HashTable.FiniteMap
import UserPageCache.SsdCache.Offsets
import UserPageCache.SsdCache.Placement
import UserPageCache.SsdCache.Progress
import UserPageCache.SsdCache.ReturnCodes
import UserPageCache.SsdCache.WorkQueue.Fifo
import UserPageCache.Lib.Locks
import UserPageCache.Lib.Stamps
import UserPageCache.SsdCache.Linking
import UserPageCache.SsdCache.Locking
import UserPageCache.SsdCache.Order
import UserPageCache.PageCache.Marked
import UserPageCache.Stack
import UserPageCache.Stack.Promises
import UserPageCache.Stack.Shutdown
import UserPageCache.Lib.Digits
import UserPageCache.PageCache.Coverage
import UserPageCache.PageCache.EmptyRequests
import UserPageCache.PageCache.Header
import UserPageCache.PageCache.Restart
import UserPageCache.SsdCache.Route
import UserPageCache.SsdCache.Route.Theorems
import UserPageCache.SsdCache.ScatterGather
import UserPageCache.SsdCache.WorkQueue.Membership
import UserPageCache.Lib.Heap
import UserPageCache.Lib.Journal
import UserPageCache.Lib.Sections
import UserPageCache.PageCache.WorkingSet
import UserPageCache.SsdCache.PioChain
import UserPageCache.SsdCache.Plugins
import UserPageCache.SsdCache.Plugins.Theorems
import UserPageCache.SsdCache.Spinlock
import UserPageCache.SsdCache.Statistics
import UserPageCache.SsdCache.WorkQueue.Statements
import UserPageCache.SsdCache.WorkerLoop
import UserPageCache.Stack.Reads
import UserPageCache.Lib.Stores
import UserPageCache.PageCache.Engine
import UserPageCache.SsdCache.ReadOnly
import UserPageCache.SsdCache.Transport
import UserPageCache.SsdCache.Confined
import UserPageCache.Lib.WriteBack
import UserPageCache.SsdCache.WriteBack
