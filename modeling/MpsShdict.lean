import MpsShdict.Queue
import MpsShdict.QueueSplice
import MpsShdict.Lib.RedBlack
import MpsShdict.Lib.Words
import MpsShdict.String
import MpsShdict.Rbtree
import MpsShdict.RbtreeShape
import MpsShdict.RbtreeRotate
import MpsShdict.RbtreeInsert
import MpsShdict.RbtreeDelete
import MpsShdict.RbtreeOrder
import MpsShdict.RbtreeNext
import MpsShdict.Slab
import MpsShdict.SlabLayout
import MpsShdict.SlabShelf
import MpsShdict.SlabPages
import MpsShdict.SlabMerge
import MpsShdict.SlabChunks
import MpsShdict.SlabAlloc
import MpsShdict.SlabCount
import MpsShdict.SlabFrame
import MpsShdict.SlabFree
import MpsShdict.SlabLive
import MpsShdict.SlabRuns
import MpsShdict.SlabInit
import MpsShdict.SlabSafety
import MpsShdict.SlabBlocks
import MpsShdict.SlabWrites
import MpsShdict.SlabComplete
import MpsShdict.SlabCapacity
import MpsShdict.SlabBadFree
import MpsShdict.SlabGiven
import MpsShdict.SlabStats
import MpsShdict.Registry
import MpsShdict.SlabMutex
import MpsShdict.SlabCreate
import MpsShdict.Shdict
import MpsShdict.ShdictCalls
import MpsShdict.ShdictFind
import MpsShdict.KeyOrder
import MpsShdict.ShdictEntries
import MpsShdict.ShdictShape
import MpsShdict.ShdictRep
import MpsShdict.ShdictModel
import MpsShdict.ShdictRefine
import MpsShdict.ShdictLists
import MpsShdict.ShdictRuns
import MpsShdict.ShdictEffect
import MpsShdict.Lib.Recency
import MpsShdict.ShdictRecency
import MpsShdict.ShdictPosition
import MpsShdict.ShdictFrame
import MpsShdict.ShdictFlush
import MpsShdict.ShdictExpiry
import MpsShdict.ShdictTtl
import MpsShdict.ShdictCounts
import MpsShdict.ShdictValues
import MpsShdict.ShdictInvariant
import MpsShdict.ShdictSizes
import MpsShdict.ShdictWrap
import MpsShdict.ShdictIncr
import MpsShdict.ShdictLengths
import MpsShdict.ShdictListHead
import MpsShdict.ShdictTeardown
import MpsShdict.Lib.Expiring
import MpsShdict.ShdictMap
import MpsShdict.ShdictErrors
import MpsShdict.ShdictBlocks
import MpsShdict.ShdictDeque
import MpsShdict.ShdictDequeRuns
import MpsShdict.Setup
import MpsShdict.SetupRuns
import MpsShdict.SetupErrors
import MpsShdict.SetupMap
import MpsShdict.SetupDeque
import MpsShdict.Lib.Rounds
import MpsShdict.Lib.RedBlackHeight
import MpsShdict.RbtreeHeight
import MpsShdict.ShdictRounds
import MpsShdict.ShdictRoom
import MpsShdict.Lib.Memory
import MpsShdict.SlabBooks
import MpsShdict.SlabClients
import MpsShdict.SlabBlocked
import MpsShdict.Lib.Sections
import MpsShdict.ShdictSections
