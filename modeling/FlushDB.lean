import FlushDB.Lib.Run
import FlushDB.Lib.ObjectStore
import FlushDB.Lib.Padding
import FlushDB.Lib.Merge
import FlushDB.Lib.BinarySearch
import FlushDB.Lib.Checked
import FlushDB.Lib.Sweep
import FlushDB.Lib.Retention
import FlushDB.Lib.Codec
import FlushDB.Lib.Base64
import FlushDB.Lib.Collect
import FlushDB.Lib.Task
import FlushDB.Lib.Separated
import FlushDB.Lib.FileTree
import FlushDB.Lib.Numerals
import FlushDB.Lib.Murmur3
import FlushDB.Lib.RSplit
import FlushDB.Lib.Mixing
import FlushDB.Lib.Versioned
import FlushDB.Lib.WriteOnce
import FlushDB.Types.Key
import FlushDB.Types.Entry
import FlushDB.Types.DerivedTokens
import FlushDB.Types.KeyOrder
import FlushDB.Wal.Log
import FlushDB.Wal.Order
import FlushDB.Wal.Sessions
import FlushDB.Wal.Manager
import FlushDB.Wal.GroupCommit
import FlushDB.Wal.Recording
import FlushDB.Wal.Attribution
import FlushDB.Wal.Tracking
import FlushDB.Wal.EntryBytes
import FlushDB.Wal.SegmentBytes
import FlushDB.Wal.TornSegments
import FlushDB.Wal.Corruption
import FlushDB.Wal.Positions
import FlushDB.Wal.Files
import FlushDB.Wal.Disk
import FlushDB.Manifest.Types
import FlushDB.Manifest.Apply
import FlushDB.Manifest.Manager
import FlushDB.Manifest.System
import FlushDB.Manifest.Chain
import FlushDB.Manifest.Pruning
import FlushDB.Manifest.Snapshots
import FlushDB.Manifest.Outcome
import FlushDB.Manifest.Linearization
import FlushDB.Manifest.Fencing
import FlushDB.Manifest.Sequential
import FlushDB.Manifest.Newest
import FlushDB.Compaction.Scheduler
import FlushDB.Compaction.Executor
import FlushDB.Compaction.Levels
import FlushDB.Compaction.Replacement
import FlushDB.Compaction.Outputs
import FlushDB.Compaction.Preserves
import FlushDB.Compaction.Shelf
import FlushDB.Compaction.Leftovers
import FlushDB.Compaction.Ownership
import FlushDB.Compaction.Arrangement
import FlushDB.Compaction.Descent
import FlushDB.Sstable.Blocks
import FlushDB.Sstable.BlockFormat
import FlushDB.Sstable.Varint
import FlushDB.Sstable.File
import FlushDB.Sstable.Prefilters
import FlushDB.Sstable.Metadata
import FlushDB.Sstable.Cuts
import FlushDB.Sstable.RoundTrip
import FlushDB.Sstable.Cursors
import FlushDB.Sstable.Decoders
import FlushDB.Sstable.Tokens
import FlushDB.Sstable.Hash
import FlushDB.Engine.MergeIterator
import FlushDB.Engine.RangeTombstone
import FlushDB.Engine.Memtable
import FlushDB.Engine.Engine
import FlushDB.Engine.Recovery
import FlushDB.Engine.World
import FlushDB.Engine.Effects
import FlushDB.Engine.Writes
import FlushDB.Engine.Opening
import FlushDB.Engine.Steps
import FlushDB.Engine.Counters
import FlushDB.Engine.Precedence
import FlushDB.Engine.Durability
import FlushDB.Engine.Reads
import FlushDB.Engine.Found
import FlushDB.Engine.RangeDeletes
import FlushDB.Engine.BlockCache
import FlushDB.Engine.Moves
import FlushDB.Engine.Tokens
import FlushDB.Engine.Reach
import FlushDB.Engine.Reopening
import FlushDB.Engine.Mirror
import FlushDB.Engine.Segments
import FlushDB.Engine.Session
import FlushDB.Engine.Reclamation
import FlushDB.Engine.Sharing
import FlushDB.Engine.SharedRuns
import FlushDB.Engine.TableLookup
import FlushDB.Engine.Coalescing
import FlushDB.Engine.PointSearch
import FlushDB.Engine.Merged
import FlushDB.Engine.RangeScan
import FlushDB.Engine.Paging
import FlushDB.Engine.PageToken
import FlushDB.Engine.Base64
import FlushDB.Engine.TaskConflicts
import FlushDB.Engine.FailedFlush
import FlushDB.Engine.Deletion
import FlushDB.Engine.DeadObjects
import FlushDB.Engine.TableNames
import FlushDB.Engine.CachedReads
import FlushDB.Engine.CachedScans
import FlushDB.Engine.Continuity
import FlushDB.Engine.MergeHeap
import FlushDB.Engine.LastWriter
import FlushDB.Engine.ListScans
import FlushDB.Engine.LinkedSkipList
import FlushDB.Engine.WalRoundTrip
import FlushDB.Engine.KeyRange
import FlushDB.Engine.Arrangement
import FlushDB.Engine.WrittenOnce
import FlushDB.Engine.CachedMerges
import FlushDB.Engine.Recorded
import FlushDB.Engine.PinnedMetadata
import FlushDB.Engine.Layers
import FlushDB.Engine.Contents
import FlushDB.Engine.ReadBack
import FlushDB.Engine.Settling
import FlushDB.Engine.Stall
import FlushDB.Engine.Provenance
import FlushDB.Engine.ScanBack
import FlushDB.Storage.LocalFs
import FlushDB.Storage.ManifestNames
import FlushDB.Storage.Backend
import FlushDB.Storage.LocalStore
import FlushDB.Storage.LocalServing
import FlushDB.Server.NamespaceConfig
import FlushDB.Server.NamespaceManager
import FlushDB.Server.Isolation
import FlushDB.Server.VersionGenerator
import FlushDB.Server.Creation
import FlushDB.Server.Predicates
import FlushDB.Server.Routing
import FlushDB.Server.Registry
import FlushDB.Server.FailedDeletion
import FlushDB.Server.BatchTokens
