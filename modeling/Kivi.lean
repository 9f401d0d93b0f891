import Kivi.Library.Transition
import Kivi.Library.Refinement
import Kivi.Library.LinkedList
import Kivi.Library.RecencyCache
import Kivi.Library.Inclusion
import Kivi.Library.RecencyTrace
import Kivi.Library.LogShipping
import Kivi.Library.Utf8
import Kivi.Library.Token
import Kivi.Library.Framing
import Kivi.Library.Json
import Kivi.Library.JsonReader
import Kivi.Core.LRUStore
import Kivi.Core.LRURefinement
import Kivi.Core.Eviction
import Kivi.Paxos.Messages
import Kivi.Paxos.Codec
import Kivi.Rpc.Transport
import Kivi.Leaf.PaxosNode
import Kivi.Leaf.KiviLeaf
import Kivi.Leaf.RestController
import Kivi.Leaf.Detection
import Kivi.Leaf.Machine
import Kivi.Leaf.Writes
import Kivi.Leaf.Membership
import Kivi.Leaf.FailureDetector
import Kivi.Leaf.Promotions
import Kivi.Cluster.System
import Kivi.Cluster.Election
import Kivi.Cluster.Succession
import Kivi.Cluster.Provenance
import Kivi.Cluster.Failover
import Kivi.Cluster.Replication
import Kivi.Cluster.Versions
import Kivi.Cluster.FirstContact
import Kivi.Cluster.LeaderView
import Kivi.Cluster.ElectionValidity
import Kivi.Cluster.Agreement
import Kivi.Server.TextServer
import Kivi.Server.Chunking
import Kivi.Library.RecencyBatch
import Kivi.Core.Batch
import Kivi.Leaf.FailedPut
import Kivi.Leaf.Addresses
import Kivi.Leaf.SweepOrder
import Kivi.Server.Sessions
import Kivi.Cluster.Routing
import Kivi.Cluster.Wire
import Kivi.Cluster.Snapshots
import Kivi.Cluster.Stability
import Kivi.Cluster.Heartbeats
import Kivi.Cluster.Pages
import Kivi.Server.Replies
import Kivi.Cluster.Bootstrap
import Kivi.Cluster.Restarts
import Kivi.Cluster.Sockets
import Kivi.Cluster.Redirects
import Kivi.Cluster.Overruns
import Kivi.Cluster.Successor
