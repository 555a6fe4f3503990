import LedgerDB.Transition.Core
import LedgerDB.Transition.Simulation
import LedgerDB.Consensus.Quorum
import LedgerDB.Consensus.Record
import LedgerDB.Raft.Server
import LedgerDB.Raft.Group
import LedgerDB.Raft.Log
import LedgerDB.Raft.Invariant
import LedgerDB.Raft.Election
import LedgerDB.Raft.Leadership
import LedgerDB.Raft.Replication
import LedgerDB.Raft.Preservation
import LedgerDB.Raft.Safety
import LedgerDB.Raft.Bookkeeping
import LedgerDB.Raft.IndexSafety
import LedgerDB.Raft.Backtracking
import LedgerDB.Raft.Convergence
import LedgerDB.Raft.Integrity
import LedgerDB.Raft.Untouched
import LedgerDB.Raft.Rejoin
import LedgerDB.Raft.Majority
import LedgerDB.Raft.MatchIndex
import LedgerDB.Raft.Cut
import LedgerDB.Raft.Calls
import LedgerDB.Raft.Network
import LedgerDB.Raft.TcpTransport
import LedgerDB.Raft.Ticker
import LedgerDB.Raft.Advance
import LedgerDB.Data.Search
import LedgerDB.Data.Consecutive
import LedgerDB.Storage.Log
import LedgerDB.Storage.Recovery
import LedgerDB.Storage.Sequence
import LedgerDB.Storage.Sharing
import LedgerDB.Storage.Reopen
import LedgerDB.Storage.FailedAppend
import LedgerDB.Storage.CleanReopen
import LedgerDB.Storage.Width
import LedgerDB.Storage.FailedRemoval
import LedgerDB.Storage.FailedTiering
import LedgerDB.Storage.ColdReads
import LedgerDB.Storage.Shape
import LedgerDB.Storage.SegmentList
import LedgerDB.Storage.Partitioned
import LedgerDB.Batch.Batcher
import LedgerDB.Batch.Roundtrip
import LedgerDB.Batch.Conservation
import LedgerDB.Batch.Reporting
import LedgerDB.Docstore.Atomicity
import LedgerDB.Docstore.Isolation
import LedgerDB.Docstore.Indexing
import LedgerDB.Docstore.VersionChain
import LedgerDB.Docstore.Refinement
import LedgerDB.Docstore.Guarded
import LedgerDB.Docstore.Agreement
import LedgerDB.Docstore.Replay
import LedgerDB.Replication.Partition
import LedgerDB.Docstore.Serial
import LedgerDB.Replication.StorageErrors
import LedgerDB.Replication.Reboot
import LedgerDB.Replication.Incarnations
import LedgerDB.Replication.OffsetAgreement
import LedgerDB.Replication.Verbatim
import LedgerDB.Producer.Durability
import LedgerDB.Streaming.Window
import LedgerDB.Streaming.Emission
import LedgerDB.Streaming.Exact
import LedgerDB.Group.Coordinator
import LedgerDB.Schema.Registry
import LedgerDB.Security.ACL
import LedgerDB.Schema.Gate
import LedgerDB.Api.Rest
import LedgerDB.Api.Query
import LedgerDB.Mongowire.Commands
import LedgerDB.Mongowire.Safety
import LedgerDB.Mongowire.Advance
import LedgerDB.Mongowire.Framing
import LedgerDB.Mongowire.Dispatch
import LedgerDB.Mongowire.Find
import LedgerDB.Mongowire.Identity
import LedgerDB.Mongowire.InOrder
import LedgerDB.Mongowire.Updates
