import PagedDb.Foundation.Memory
import PagedDb.Foundation.Bitmap
import PagedDb.Foundation.Slots
import PagedDb.Foundation.FirstFit
import PagedDb.Foundation.Exec
import PagedDb.Foundation.Relate
import PagedDb.Foundation.TwoIndexes
import PagedDb.Foundation.Layout
import PagedDb.Foundation.Spans
import PagedDb.Foundation.WriteBack
import PagedDb.Foundation.Erasure
import PagedDb.Foundation.KeyTree
import PagedDb.Foundation.KeyChange
import PagedDb.Foundation.Streams
import PagedDb.Foundation.StaleKeys
import PagedDb.Storage.Values
import PagedDb.Storage.StringCodec
import PagedDb.Storage.Catalog
import PagedDb.Storage.TupleCodec
import PagedDb.Storage.TuplePage
import PagedDb.Storage.File
import PagedDb.Storage.BufferPool
import PagedDb.Storage.PoolCoherence
import PagedDb.Storage.WriteLog
import PagedDb.Storage.DirtyOwner
import PagedDb.Storage.FlushEffects
import PagedDb.Storage.FlushRuns
import PagedDb.Storage.KeyedPool
import PagedDb.Storage.KeysByValue
import PagedDb.Heap.HeapPage
import PagedDb.Heap.HeapPageCodec
import PagedDb.Heap.HeapFile
import PagedDb.Heap.HeapPool
import PagedDb.Heap.TableInsert
import PagedDb.Heap.TableRows
import PagedDb.Heap.PoolRuns
import PagedDb.Heap.Durability
import PagedDb.Heap.FlushedPages
import PagedDb.Heap.HeapDelete
import PagedDb.Heap.PageFetch
import PagedDb.Heap.LossyPages
import PagedDb.Heap.SlotMap
import PagedDb.Heap.StaleTuples
import PagedDb.Heap.FailedInsert
import PagedDb.Heap.KeyedScan
import PagedDb.Heap.SeqScan
import PagedDb.Heap.SlotStore
import PagedDb.Heap.SlotTables
import PagedDb.Heap.TableClients
import PagedDb.BTree.LeafPage
import PagedDb.BTree.LeafCodec
import PagedDb.BTree.InternalPage
import PagedDb.BTree.InternalCodec
import PagedDb.BTree.FilePages
import PagedDb.BTree.PageBounds
import PagedDb.BTree.PageOffsets
import PagedDb.BTree.FileWrites
import PagedDb.BTree.TreeStore
import PagedDb.BTree.TreeOps
import PagedDb.BTree.PoolInsert
import PagedDb.BTree.SplitInternal
import PagedDb.BTree.LogicalTree
import PagedDb.BTree.TreeSim
import PagedDb.BTree.PoolPages
import PagedDb.BTree.PoolSim
import PagedDb.BTree.LeafOps
import PagedDb.BTree.LeafRuns
import PagedDb.BTree.InternalOps
import PagedDb.BTree.EntrySequence
import PagedDb.BTree.EntryWalk
import PagedDb.BTree.TreeRuns
import PagedDb.BTree.LegalTree
import PagedDb.BTree.TreeSearch
import PagedDb.BTree.SplitLeaf
import PagedDb.BTree.LeafSplit
import PagedDb.BTree.SplitLegal
import PagedDb.BTree.IndexScan
import PagedDb.BTree.PagePointers
import PagedDb.BTree.TreeInsert
import PagedDb.BTree.Connected
import PagedDb.BTree.SafeRuns
import PagedDb.BTree.TreeDelete
import PagedDb.BTree.SiblingLookup
import PagedDb.BTree.DeleteFails
import PagedDb.BTree.EntryUpdate
import PagedDb.BTree.StealLeaf
import PagedDb.BTree.MinOccupancy
import PagedDb.BTree.PageReuse
import PagedDb.BTree.PageKinds
import PagedDb.BTree.ReusedNumbers
import PagedDb.BTree.ResidentPages
import PagedDb.BTree.ResidentSim
import PagedDb.BTree.PageAllocator
import PagedDb.BTree.InsertRuns
import PagedDb.BTree.TreeGrowth
import PagedDb.BTree.EvictionFree
import PagedDb.BTree.DeleteSim
import PagedDb.BTree.Refill
import PagedDb.BTree.HoledPages
import PagedDb.BTree.DeleteLegal
import PagedDb.BTree.DeleteRules
import PagedDb.BTree.TreeObjects
import PagedDb.BTree.ObjectRuns
import PagedDb.BTree.ObjectScans
import PagedDb.BTree.FileScans
import PagedDb.BTree.TupleHandles
import PagedDb.BTree.FileHandles
import PagedDb.Query.Operator
import PagedDb.Query.JoinOptimizer
