import PmDebugger.Library.AvlTree
import PmDebugger.Library.AvlBalance
import PmDebugger.Library.OrderedSet
import PmDebugger.Library.Relabelling
import PmDebugger.Library.KeyedSet
import PmDebugger.Library.Carving
import PmDebugger.Library.Persistency
import PmDebugger.Library.Runs
import PmDebugger.Library.Loops
import PmDebugger.Library.Word
import PmDebugger.Library.CircularMemory
import PmDebugger.Records
import PmDebugger.Regions
import PmDebugger.Tracker
import PmDebugger.FlushFence
import PmDebugger.ArrayFlush
import PmDebugger.SnippetFlush
import PmDebugger.TreeFlush
import PmDebugger.Transactions
import PmDebugger.Tool
import PmDebugger.Client
import PmDebugger.Mappings
import PmDebugger.Registers
import PmDebugger.TransactionEpochs
import PmDebugger.Live
import PmDebugger.LiveFlush
import PmDebugger.LiveFence
import PmDebugger.MappingBounds
import PmDebugger.DetailedReport
import PmDebugger.ReportedRecords
import PmDebugger.PrintedRecords
import PmDebugger.ReportTotals
import PmDebugger.TreeIntegrity
import PmDebugger.TreeUpdates
import PmDebugger.RegionRemoval
import PmDebugger.Integrity
import PmDebugger.TreeBytes
import PmDebugger.Overwrites
import PmDebugger.Cleaning
import PmDebugger.Durability
import PmDebugger.Insertions
import PmDebugger.SnippetTable
import PmDebugger.SnippetCount
import PmDebugger.CleanedBytes
import PmDebugger.Accesses
import PmDebugger.Reorganisation
import PmDebugger.EffectiveStates
import PmDebugger.FlushBytes
import PmDebugger.FlushAlignment
import PmDebugger.SplitValues
import PmDebugger.FlushWarnings
import PmDebugger.OverwriteBytes
import PmDebugger.SameValueRewrites
import PmDebugger.StoredBytes
import PmDebugger.Conservation
import PmDebugger.Following
import PmDebugger.FlushRules
import PmDebugger.OverwriteRule
import PmDebugger.WholeFlushes
import PmDebugger.InsertMerge
import PmDebugger.ReportedStates
import PmDebugger.ComparedRuns
import PmDebugger.StatsRequest
import PmDebugger.CacheLines
import PmDebugger.Strands
import PmDebugger.Reports
import PmDebugger.Epochs
import PmDebugger.Ordering
import PmDebugger.StrandOrder
import PmDebugger.TransactionLog
import PmDebugger.TransactionTracking
import PmDebugger.TransactionEvents
import PmDebugger.ThreadMembership
import PmDebugger.ThreadRequests
import PmDebugger.StoreDetection
import PmDebugger.Instrumentation
import PmDebugger.TracedWrites
import PmDebugger.InstrumentedRuns
import PmDebugger.ReportedWrites
import PmDebugger.ClientEffects
import PmDebugger.ClientPrograms
import PmDebugger.TrackedPrograms
import PmDebugger.ReplayedWrites
import PmDebugger.SetNodes
import PmDebugger.SetSwings
import PmDebugger.SetUpdates
import PmDebugger.SetWalks
import PmDebugger.SetRuns
import PmDebugger.SetElements
import PmDebugger.Pmemcheck
import PmDebugger.PmemcheckBytes
import PmDebugger.CheckedPrograms
import PmDebugger.ComparedTools
import PmDebugger.ErrorSummaries
