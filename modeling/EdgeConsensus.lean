import EdgeConsensus.Raft.Votes
import EdgeConsensus.Raft.ClientOrder
import EdgeConsensus.Raft.CatchUp
import EdgeConsensus.Raft.FollowerCommit
import EdgeConsensus.Raft.Lookup
import EdgeConsensus.Raft.HigherTerm
import EdgeConsensus.Raft.Indices
import EdgeConsensus.Raft.Participation
import EdgeConsensus.Raft.Provenance
import EdgeConsensus.Raft.Leaders
import EdgeConsensus.Raft.Service
import EdgeConsensus.Raft.Frames
import EdgeConsensus.Raft.Received
import EdgeConsensus.Raft.Sockets
import EdgeConsensus.Peer.Origin
import EdgeConsensus.Peer.Stamps
import EdgeConsensus.Peer.Membership
import EdgeConsensus.Peer.Synchronised
import EdgeConsensus.Peer.Malformed
import EdgeConsensus.Peer.Pull
import EdgeConsensus.Peer.Convergence
import EdgeConsensus.Peer.Settling
import EdgeConsensus.Log.RangeRead
import EdgeConsensus.Edge.Responses
import EdgeConsensus.Edge.Server
import EdgeConsensus.Local.Raises
import EdgeConsensus.Lib.Filtered
import EdgeConsensus.Lib.Simulation
import EdgeConsensus.Raft.Parsed
