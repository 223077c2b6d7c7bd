import Nyumt.Handshake
import Nyumt.Proofs.Ack
import Nyumt.Proofs.Admission
import Nyumt.Proofs.Agreement
import Nyumt.Proofs.Alike
import Nyumt.Proofs.Answer
import Nyumt.Proofs.Atomic
import Nyumt.Proofs.Await
import Nyumt.Proofs.BlockFeed
import Nyumt.Proofs.Calls
import Nyumt.Proofs.Chain
import Nyumt.Proofs.Channel
import Nyumt.Proofs.Clean
import Nyumt.Proofs.Client
import Nyumt.Proofs.ClientLog
import Nyumt.Proofs.Collector
import Nyumt.Proofs.Completeness
import Nyumt.Proofs.Completion
import Nyumt.Proofs.Counting
import Nyumt.Proofs.Forks
import Nyumt.Proofs.Frames
import Nyumt.Proofs.Gate
import Nyumt.Proofs.Handshake
import Nyumt.Proofs.InBounds
import Nyumt.Proofs.Keys
import Nyumt.Proofs.Links
import Nyumt.Proofs.Mirror
import Nyumt.Proofs.NodeSync
import Nyumt.Proofs.Oid
import Nyumt.Proofs.OwnConfig
import Nyumt.Proofs.Parties
import Nyumt.Proofs.PeerCheck
import Nyumt.Proofs.Peers
import Nyumt.Proofs.Permitted
import Nyumt.Proofs.Points
import Nyumt.Proofs.Poll
import Nyumt.Proofs.Privilege
import Nyumt.Proofs.Proposal
import Nyumt.Proofs.Repeats
import Nyumt.Proofs.Replay
import Nyumt.Proofs.Replication
import Nyumt.Proofs.Reports
import Nyumt.Proofs.Retries
import Nyumt.Proofs.Serial
import Nyumt.Proofs.StatsFeed
import Nyumt.Proofs.Steering
import Nyumt.Proofs.Steps
import Nyumt.Proofs.Storage
import Nyumt.Proofs.Timer
import Nyumt.Proofs.Traces
import Nyumt.Proofs.Updates
import Nyumt.Proofs.Upgrading
import Nyumt.Proofs.Verdict
import Nyumt.Proofs.Voting
import Nyumt.Proofs.WellFormed
import Nyumt.Proofs.Window
import Nyumt.ToySuite
