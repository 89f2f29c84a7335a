import RaftVdb.Acknowledgement
import RaftVdb.Authority
import RaftVdb.BoundaryOrder
import RaftVdb.Candidacy
import RaftVdb.ChainShape
import RaftVdb.CommitListeners
import RaftVdb.CommitProgress
import RaftVdb.Contiguity
import RaftVdb.Convergence
import RaftVdb.DedupHistory
import RaftVdb.Election
import RaftVdb.HandlerRaces
import RaftVdb.InstallFaults
import RaftVdb.LeaderProbe
import RaftVdb.LeaderRole
import RaftVdb.LeaseReads
import RaftVdb.MaintenanceCheck
import RaftVdb.MatchIndex
import RaftVdb.MetaFile
import RaftVdb.PeerLists
import RaftVdb.PendingRecords
import RaftVdb.Pipelining
import RaftVdb.ProposeFaults
import RaftVdb.Replication
import RaftVdb.Requests
import RaftVdb.Rollback
import RaftVdb.Safety
import RaftVdb.Senders
import RaftVdb.SharedWindow
import RaftVdb.SnapshotTransfer
import RaftVdb.StoredVectors
import RaftVdb.Takeover
import RaftVdb.TwoLevels
import RaftVdb.VectorIndex
import RaftVdb.Votes
import RaftVdb.WalBurst
import RaftVdb.WalFaults
import RaftVdb.WalTornTail
import RaftVdb.WellFormed
import RaftVdb.Window
import RaftVdb.WireEntries
