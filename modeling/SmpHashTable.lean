import SmpHashTable.Lib.BitField
import SmpHashTable.Lib.Bytes
import SmpHashTable.Lib.Lists
import SmpHashTable.Lib.LruCache
import SmpHashTable.Lib.Outcome
import SmpHashTable.Lib.Ownership
import SmpHashTable.Lib.Ring
import SmpHashTable.Lib.Residues
import SmpHashTable.Lib.Runs
import SmpHashTable.Util
import SmpHashTable.Memory
import SmpHashTable.Partition
import SmpHashTable.PartitionInv
import SmpHashTable.Table
import SmpHashTable.LruRefinement
import SmpHashTable.Protocol
import SmpHashTable.Storage
import SmpHashTable.KeyRouting
import SmpHashTable.Buffers
import SmpHashTable.Framing
import SmpHashTable.System
import SmpHashTable.Fifo
import SmpHashTable.Box
import SmpHashTable.Pending
import SmpHashTable.ClientInv
import SmpHashTable.Refinement
import SmpHashTable.Delivery
import SmpHashTable.FlowControl
import SmpHashTable.Shutdown
import SmpHashTable.Handles
import SmpHashTable.RefCount
import SmpHashTable.Events
import SmpHashTable.References
import SmpHashTable.Ledger
import SmpHashTable.Saturation
import SmpHashTable.AndersonLock
import SmpHashTable.LockExclusion
import SmpHashTable.Locking
import SmpHashTable.AtomicCounts
import SmpHashTable.AtomicRuns
import SmpHashTable.HashServer
import SmpHashTable.ValueBuffer
import SmpHashTable.RequestStream
import SmpHashTable.Decoding
import SmpHashTable.Draining
import SmpHashTable.Releases
import SmpHashTable.Descriptors
import SmpHashTable.Connections
import SmpHashTable.Responses
import SmpHashTable.ResponseStream
import SmpHashTable.Waiting
import SmpHashTable.Progress
import SmpHashTable.WriteIovs
import SmpHashTable.Channel
import SmpHashTable.BatchProcessing
import SmpHashTable.Placement
import SmpHashTable.PendingCalls
import SmpHashTable.PipelinedClient
import SmpHashTable.Eviction
import SmpHashTable.OnewayBuffer
import SmpHashTable.Registration
import SmpHashTable.Lib.FillingCache
import SmpHashTable.Lib.NumberedCache
import SmpHashTable.Lib.LastInsert
import SmpHashTable.CacheRefinement
import SmpHashTable.LockingRefinement
import SmpHashTable.Teardown
import SmpHashTable.Acceptor
import SmpHashTable.Conversation
import SmpHashTable.LockingConversation
import SmpHashTable.Designs
import SmpHashTable.Doqueries
import SmpHashTable.LockingDoqueries
