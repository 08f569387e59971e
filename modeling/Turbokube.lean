import Turbokube.Encoding.Bytes
import Turbokube.Encoding.Uvarint
import Turbokube.Encoding.BigEndian
import Turbokube.Encoding.Crc
import Turbokube.Lmdb.Table
import Turbokube.Lmdb.Dup
import Turbokube.Lmdb.Cursor
import Turbokube.Model.Types
import Turbokube.Model.Kv
import Turbokube.Record.Keyrev
import Turbokube.Record.Codec
import Turbokube.Record.Stamp
import Turbokube.Model.DbKv
import Turbokube.Model.Lease
import Turbokube.Model.Messages
import Turbokube.Model.StateMachine
import Turbokube.Machine.Effect
import Turbokube.Machine.Batching
import Turbokube.Store.Records
import Turbokube.Store.Failures
import Turbokube.Store.Writes
import Turbokube.Store.Deletes
import Turbokube.Store.Steps
import Turbokube.Machine.Commands
import Turbokube.Machine.Runs
import Turbokube.Machine.PutPaths
import Turbokube.Machine.Revisions
import Turbokube.Machine.TxnReject
import Turbokube.History.Versions
import Turbokube.Store.Rep
import Turbokube.Store.Versioned
import Turbokube.Store.Events
import Turbokube.Store.Growth
import Turbokube.Store.Pruning
import Turbokube.Store.Compaction
import Turbokube.Store.CompactedReads
import Turbokube.Store.Reads
import Turbokube.Store.Ranges
import Turbokube.Store.Newest
import Turbokube.Machine.Histories
import Turbokube.Machine.NewestFirst
import Turbokube.Machine.Compactions
import Turbokube.Machine.Snapshots
import Turbokube.Machine.Paging
import Turbokube.Machine.Deletions
import Turbokube.Lease.Deadlines
import Turbokube.Lease.KeyIndex
import Turbokube.Lease.Revoke
import Turbokube.Machine.Leases
import Turbokube.Machine.Expiry
import Turbokube.Machine.Attached
import Turbokube.Machine.Covered
import Turbokube.Machine.Attachments
import Turbokube.Machine.Growth
import Turbokube.Machine.CompactMarks
import Turbokube.Store.Anchors
import Turbokube.Lease.Sweeping
import Turbokube.Lease.Exact
import Turbokube.Machine.Ticks
import Turbokube.Machine.LeaseTimes
import Turbokube.Model.Controller
import Turbokube.Machine.Terms
import Turbokube.Model.StorageKv
import Turbokube.Store.PartialCompaction
import Turbokube.Machine.Amortised
import Turbokube.Model.Watch
import Turbokube.Store.Spacing
import Turbokube.Machine.Spacing
import Turbokube.Machine.Events
import Turbokube.Watch.Content
import Turbokube.Watch.Delivery
import Turbokube.Watch.Runs
import Turbokube.Transition
import Turbokube.Family
import Turbokube.Watch.Starts
import Turbokube.Model.MachineStream
import Turbokube.Registry
import Turbokube.Watch.Streams
import Turbokube.Watch.Compacted
import Turbokube.Model.ServiceWatch
import Turbokube.Watch.Conns
import Turbokube.Watch.Packing
import Turbokube.Watch.Progress
import Turbokube.Model.StorageModule
import Turbokube.Model.StorageStream
import Turbokube.Watch.Intervals
import Turbokube.Store.RevScan
import Turbokube.Machine.StorageEffect
import Turbokube.Watch.Notices
import Turbokube.Model.StorageWatch
import Turbokube.Watch.Creation
import Turbokube.Machine.CompactOutcomes
import Turbokube.Model.ZigKv
import Turbokube.Machine.ZigCompaction
import Turbokube.Machine.Duplicates
import Turbokube.Machine.Total
import Turbokube.Watch.Replies
import Turbokube.Watch.Selection
import Turbokube.Watch.Rounds
import Turbokube.Watch.Copies
import Turbokube.Watch.Builds
import Turbokube.EditGrid.Furthest
import Turbokube.Model.Lcs
import Turbokube.Lcs.Alignment
import Turbokube.Lcs.Fix
import Turbokube.Lcs.Labels
import Turbokube.Lcs.Passes
import Turbokube.Lcs.Paths
import Turbokube.Lcs.Forward
import Turbokube.Lcs.Meeting
import Turbokube.Lcs.Search
import Turbokube.Lcs.Diffs
import Turbokube.Model.Patch
import Turbokube.Patch.Apply
import Turbokube.Patch.RoundTrip
import Turbokube.Encoding.LittleEndian
import Turbokube.Snappy.Format
import Turbokube.Model.ZigSnappy
import Turbokube.Snappy.Decode
import Turbokube.Snappy.Encode
import Turbokube.Store.Kept
import Turbokube.Machine.Listing
import Turbokube.Model.Query
import Turbokube.Machine.PastReads
import Turbokube.Machine.Replicas
import Turbokube.Watch.Caches
