import DiskANNEval.AiSAQ.PqDelivery
import DiskANNEval.AiSAQ.MergedGraph
import DiskANNEval.AiSAQ.WellFormed
import DiskANNEval.AiSAQ.SlotQueries
import DiskANNEval.AiSAQ.TagStore
import DiskANNEval.PipeANN.InsertLocks
import DiskANNEval.PipeANN.LocationRuns
import DiskANNEval.PipeANN.RecordUpdates
import DiskANNEval.PipeANN.PipeReturn
import DiskANNEval.PipeANN.MemIndexSaved
import DiskANNEval.FreshDiskANN.MergeInsertReads
import DiskANNEval.FreshDiskANN.MergedNhoods
import DiskANNEval.FreshDiskANN.SyncIndex
import DiskANNEval.Gorgeous.PageLayout
import DiskANNEval.PageANN.PageSearchRefines
import DiskANNEval.PageANN.PqData
import DiskANNEval.AiSAQ.BeamAgree
import DiskANNEval.AiSAQ.BeamPool
import DiskANNEval.Gorgeous.GraphPagesAgree
import DiskANNEval.Gorgeous.PageSearchComplete
import DiskANNEval.AiSAQ.CachedIo
import DiskANNEval.AiSAQ.GraphStore
import DiskANNEval.AiSAQ.Build
import DiskANNEval.AiSAQ.InsertAtomic
import DiskANNEval.AiSAQ.CommonFilters
import DiskANNEval.AiSAQ.FilteredCompact
import DiskANNEval.AiSAQ.LabelFiles
import DiskANNEval.AiSAQ.DensePoints
import DiskANNEval.AiSAQ.PointLabels
import DiskANNEval.AiSAQ.PqCacheLoad
import DiskANNEval.AiSAQ.RearrangeMap
import DiskANNEval.AiSAQ.DiskDivisors
import DiskANNEval.AiSAQ.PqReadSizes
import DiskANNEval.PipeANN.MergeEntry
import DiskANNEval.PipeANN.BeamCoords
import DiskANNEval.PipeANN.BeamLive
import DiskANNEval.PipeANN.PageRefs
import DiskANNEval.PipeANN.DeltaPrune
import DiskANNEval.PipeANN.MemIndexConsolidated
import DiskANNEval.PipeANN.MemIndexSearch
import DiskANNEval.PipeANN.LoadToMem
import DiskANNEval.PipeANN.MapBounds
import DiskANNEval.PipeANN.DiskLayout
import DiskANNEval.FreshDiskANN.MergeInsertSearch
import DiskANNEval.FreshDiskANN.ScanDeleted
import DiskANNEval.FreshDiskANN.RenameCall
import DiskANNEval.FreshDiskANN.MergeEntry
import DiskANNEval.FreshDiskANN.CompactStart
import DiskANNEval.DGAI.PqDists
import DiskANNEval.Gorgeous.VectorManager
import DiskANNEval.Gorgeous.ScaledPartition
import DiskANNEval.DGAI.ReorderTopo
import DiskANNEval.DGAI.RerankResults
import DiskANNEval.PageANN.PageNeighbors
import DiskANNEval.Gorgeous.ReadDrain
import DiskANNEval.Gorgeous.CachedReads
import DiskANNEval.PipeANN.SharedMutex
import DiskANNEval.DGAI.BlockCacheData
