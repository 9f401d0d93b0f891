import Kivi.Leaf.PaxosNode

/-! A leaf: a member of the cluster with its store, its role and its view of the leader. -/
namespace Kivi

open LinkedList (Fault)

structure HashOrder where
  arrange : UnorderedMap Bytes Bytes → UnorderedMap Bytes Bytes
  perm : ∀ m, (arrange m).entries.Perm m.entries

def HashOrder.stored : HashOrder := ⟨id,fun _ => .refl _⟩

/-! The values of `KiviLeafRole`. -/

def localLeader : Int32 := 0
def promotionReadyReplica : Int32 := 1

structure KiviLeaf extends PaxosNode where
  leafRole : Int32
  currentLeaderId : Int32
  currentLeader : PaxosNodeDescriptor
  lastSyncTime : Int64
  kivi : KiviTree

/-- The readings of the clock in one step of a leaf; `loadedAt` is the one that stamps the
items of a snapshot. -/
structure Clock where
  now : Int64
  loadedAt : Int64

namespace KiviLeaf

open PaxosNode (sendMessage sendAll)

/-- The constructor assigns neither `current_leader` nor `last_sync_time`. -/
def new (nodeIp : Bytes) (nodePort : Int32) (nodeId : Int64) (leafRole : Int32)
    (isProposer : Bool) (currentLeaderId : Int32) (currentLeader : PaxosNodeDescriptor)
    (lastSyncTime : Int64) : KiviLeaf where
  toPaxosNode := .new nodeId nodeIp nodePort isProposer
  leafRole
  currentLeaderId
  currentLeader
  lastSyncTime
  kivi := .new 100

/-- The first entry of the current leader; `none` is the exception. The descriptor returned
has no `last_sync` of its own. -/
def getCurrentLeader (unset : Int64) (s : KiviLeaf) : Option PaxosNodeDescriptor :=
  (s.localClusterNodes.find? fun n => decide (n.nodeId = s.currentLeaderId.toInt64)).map fun n =>
    { n with lastSync := unset }

/-! ### Synchronisation -/

def pullLeaderData (up : Reachability) (s : KiviLeaf) : Sending :=
  sendMessage up s.currentLeader.nodeIp s.currentLeader.nodePort
    (.localSyncRequest ⟨s.nodeId,s.lastSyncTime⟩)

def pushLeaderData (up : Reachability) (clock : Clock) (order : HashOrder)
    (requester : PaxosNodeDescriptor) (s : KiviLeaf) : Sending :=
  let payload := LocalSyncPayload.loadFromMap clock.loadedAt (order.arrange s.kivi.getKvBatch)
  sendMessage up requester.nodeIp requester.nodePort
    (.localSyncResponse ⟨s.nodeId,requester.nodeId,requester.lastSync,clock.now,payload⟩)

def followers (s : KiviLeaf) : List PaxosNodeDescriptor :=
  s.localClusterNodes.filter fun n => decide (n.nodeId ≠ s.nodeId) && n.isAlive

def pushToFollowers (up : Reachability) (now : Int64) (key value : Bytes) (s : KiviLeaf) :
    Sending :=
  sendAll up s.followers (.localSyncPush ⟨s.nodeId,now,key,value⟩)

/-! ### Election -/

def broadcastSelfPromotion (up : Reachability) (now : Int64) (s : KiviLeaf) : Sending :=
  sendAll up s.followers (.localSyncSelfPromotion ⟨s.nodeId,now⟩)

def lowestId (s : KiviLeaf) : Int64 :=
  s.localClusterNodes.foldl
    (fun lowest n => if n.isAlive ∧ n.nodeId < lowest then n.nodeId else lowest) s.nodeId

/-- A ready replica whose leader is listed and dead takes over when its id is the lowest;
the exceptions of the lookup are caught. -/
def trySelfPromote (up : Reachability) (now : Int64) (s : KiviLeaf) : KiviLeaf × List Packet :=
  if s.leafRole ≠ promotionReadyReplica then (s,[])
  else match s.getCurrentLeader 0 with
    | none => (s,[])
    | some leader =>
      if s.localClusterNodes.any fun n => decide (n.nodeId = leader.nodeId) && n.isAlive then (s,[])
      else if s.lowestId = s.nodeId then
        let s := { s with currentLeaderId := s.nodeId.toInt32, leafRole := localLeader }
        (s,(s.broadcastSelfPromotion up now).packets)
      else (s,[])

/-- `on_leader_failure_detected`, with the table in the middle of the sweep. -/
def onLeaderFailureDetected (up : Reachability) (promotedAt : Int64)
    (table : List PaxosNodeDescriptor) (r : KiviLeaf × List Packet) : KiviLeaf × List Packet :=
  let (s,packets) := trySelfPromote up promotedAt { r.1 with localClusterNodes := table }
  (s,r.2 ++ packets)

def detectFailures (up : Reachability) (now promotedAt : Int64) (s : KiviLeaf) :
    KiviLeaf × List Packet :=
  let s := { s with clusterNodes := s.clusterNodes.map (PaxosNode.detectEntry s.nodeId now) }
  let (table,s',packets) := PaxosNode.sweepLocal (onLeaderFailureDetected up promotedAt)
    s.nodeId s.localClusterLeader now [] s.localClusterNodes (s,[])
  ({ s' with localClusterNodes := table },packets)

/-! ### Messages -/

/-- Every entry with the id of the new leader overwrites the copy of its descriptor. -/
def followLeader (leaderNodeId now : Int64) (s : KiviLeaf) : KiviLeaf :=
  { s with
    currentLeaderId := leaderNodeId.toInt32
    currentLeader := s.localClusterNodes.foldl (fun leader n =>
      if n.nodeId = leaderNodeId then { n with lastSeen := now, lastSync := -1 } else leader)
      s.currentLeader }

/-- The handler given to the message server. What it throws is logged by the server. -/
def handleMessage (up : Reachability) (clock : Clock) (order : HashOrder) (msg : Message)
    (s : KiviLeaf) : Except Fault (KiviLeaf × List Packet) :=
  match msg with
  | .localSyncPush req => do
    let kivi ← s.kivi.put req.key req.value
    return ({ s with kivi, lastSyncTime := req.latestSyncTimestamp },[])
  | .localSyncRequest req =>
    match s.localClusterNodes.find? fun n => decide (n.nodeId = req.followerNodeId) with
    | some requester => return (s,(s.pushLeaderData up clock order requester).packets)
    | none => return (s,[])
  | .localSyncResponse res => do
    let kivi ← s.kivi.setKvBatch (order.arrange res.payload.getPayload)
    return ({ s with kivi, lastSyncTime := res.latestSyncTimestamp },[])
  | .localSyncSelfPromotion res =>
    let s := s.followLeader res.leaderNodeId clock.now
    return (s,(s.pullLeaderData up).packets)
  | _ => return ({ s with toPaxosNode := s.toPaxosNode.handlePaxosMessage clock.now msg },[])

/-- The end of `run`: look the leader up and, unless it is the node itself, pull its data. -/
def boot (up : Reachability) (unset : Int64) (s : KiviLeaf) : KiviLeaf × List Packet :=
  match s.getCurrentLeader unset with
  | none => (s,[])
  | some leader =>
    let s := { s with currentLeader := leader }
    if s.nodeId ≠ s.currentLeader.nodeId then (s,(s.pullLeaderData up).packets) else (s,[])

end KiviLeaf
end Kivi
