import Kivi.Rpc.Transport

/-! The membership part of a node: its two tables, heartbeats and the failure detector. -/
namespace Kivi

open Bytes (ofString)

section Search

variable {α β : Type*} [DecidableEq β] {f : α → β} {l : List α} {a : α} {b : β}

theorem find?_key (h : (l.find? fun a => decide (f a = b)) = some a) : a ∈ l ∧ f a = b := by
  have hkey := List.find?_some h
  rw [decide_eq_true_eq] at hkey
  exact ⟨List.mem_of_find?_eq_some h,hkey⟩

theorem find?_of_nodup (hd : (l.map f).Nodup) (ha : a ∈ l) :
    (l.find? fun b => decide (f b = f a)) = some a := by
  cases hfind : l.find? fun b => decide (f b = f a) with
  | none =>
    have hnot := List.find?_eq_none.mp hfind a ha
    simp at hnot
  | some b =>
    obtain ⟨hb,hkey⟩ := find?_key hfind
    rw [List.inj_on_of_nodup_map hd hb ha hkey]

end Search

structure PaxosNodeDescriptor where
  nodeId : Int64
  nodeIp : Bytes
  nodePort : Int32
  lastSeen : Int64
  lastSync : Int64
  isAlive : Bool
  deriving DecidableEq

structure PaxosNodeSharableDescriptor where
  nodeId : Int64
  nodeIp : Bytes
  nodePort : Int32
  deriving DecidableEq

structure PaxosNode where
  nodeId : Int64
  nodeIp : Bytes
  nodePort : Int32
  isProposer : Bool
  localClusterLeader : Int64
  localClusterNodes : List PaxosNodeDescriptor
  clusterNodes : List PaxosNodeDescriptor

/-- Which addresses accept a connection while a step is taken. -/
abbrev Reachability := Bytes → Int32 → Bool

structure Packet where
  nodeIp : Bytes
  nodePort : Int32
  msg : Message

/-- What a call that sends messages has put on the network, and the exception it threw. -/
structure Sending where
  packets : List Packet
  thrown : Option Json.Error

namespace Sending

def none : Sending := ⟨[],.none⟩

/-- Calls made side by side: all of them send, the first exception is passed on. -/
def both (a b : Sending) : Sending := ⟨a.packets ++ b.packets,a.thrown.or b.thrown⟩

end Sending

namespace PaxosNodeDescriptor

def address (n : PaxosNodeDescriptor) : Bytes × Int32 := (n.nodeIp,n.nodePort)

/-- `1000*HEARTBEAT_SLEEP_TIME*HEARTBEAT_SKIP_COUNT`. -/
def silenceLimit : Int64 := 1000*5*3

def expired (now : Int64) (n : PaxosNodeDescriptor) : Bool :=
  decide (now-n.lastSeen > silenceLimit)

end PaxosNodeDescriptor

namespace PaxosNode

/-- No leader is watched before `set_local_cluster_leader`. -/
def new (nodeId : Int64) (nodeIp : Bytes) (nodePort : Int32) (isProposer : Bool) : PaxosNode where
  nodeId
  nodeIp
  nodePort
  isProposer
  localClusterLeader := -1
  localClusterNodes := []
  clusterNodes := []

def setLocalClusterLeader (nodeId : Int64) (s : PaxosNode) : PaxosNode :=
  { s with localClusterLeader := nodeId }

/-! ### Messages -/

def sendMessage (up : Reachability) (nodeIp : Bytes) (nodePort : Int32) (msg : Message) :
    Sending :=
  match RPCClient.send (up nodeIp nodePort) msg with
  | .ok (_,some _) => ⟨[⟨nodeIp,nodePort,msg⟩],none⟩
  | .ok (_,none) => .none
  | .error e => ⟨[],some e⟩

/-- One task for each node, all of them awaited. -/
def sendAll (up : Reachability) (nodes : List PaxosNodeDescriptor) (msg : Message) : Sending :=
  nodes.foldr (fun n r => (sendMessage up n.nodeIp n.nodePort msg).both r) .none

def broadcastHeartBeat (up : Reachability) (msg : HeartBeatMessage) (clusterType : Int32)
    (s : PaxosNode) : Sending :=
  let nodes := if clusterType = 1 then s.clusterNodes else s.localClusterNodes
  sendAll up (nodes.filter fun n => decide (n.nodeId ≠ s.nodeId)) (.heartBeat msg)

/-- One round of the heartbeat thread. The cluster type of `msg_local` is never assigned;
`unset` stands for what it holds. -/
def iniateHeartbeat (up : Reachability) (now₁ now₂ : Int64) (unset : Int32) (s : PaxosNode) :
    List Packet :=
  let msgCluster : HeartBeatMessage := ⟨s.nodeId,s.nodeIp,s.nodePort,now₁,1⟩
  let msgLocal : HeartBeatMessage := ⟨s.nodeId,s.nodeIp,s.nodePort,now₂,unset⟩
  (s.broadcastHeartBeat up msgCluster 1).packets ++ (s.broadcastHeartBeat up msgLocal 2).packets

/-! ### Tables -/

def addNewNode (now : Int64) (newNode : PaxosNodeSharableDescriptor) (clusterType : Int32)
    (s : PaxosNode) : PaxosNode :=
  let desc : PaxosNodeDescriptor :=
    ⟨newNode.nodeId,newNode.nodeIp,newNode.nodePort,now,-1,true⟩
  if clusterType = 1 then { s with clusterNodes := s.clusterNodes ++ [desc] }
  else { s with localClusterNodes := s.localClusterNodes ++ [desc] }

def registerClusterNodes (now : Int64) (initialNodes : List PaxosNodeSharableDescriptor)
    (s : PaxosNode) : PaxosNode :=
  initialNodes.foldl (fun s n => s.addNewNode now n 2) s

/-- The same loop with the clock read anew for every node. -/
def registerEach (initialNodes : List (Int64 × PaxosNodeSharableDescriptor)) (s : PaxosNode) :
    PaxosNode :=
  initialNodes.foldl (fun s n => s.addNewNode n.1 n.2 2) s

/-- Only the table of the global cluster is searched. -/
def removeNode (node : PaxosNodeSharableDescriptor) (s : PaxosNode) : PaxosNode :=
  { s with clusterNodes := s.clusterNodes.filter fun n => decide (n.nodeId ≠ node.nodeId) }

/-- Refresh the first entry of the sender; none when it is not listed. -/
def refresh (msg : HeartBeatMessage) : List PaxosNodeDescriptor → Option (List PaxosNodeDescriptor)
  | [] => none
  | n::ns =>
    if n.nodeId = msg.nodeId then some ({ n with lastSeen := msg.lastSeen, isAlive := true } :: ns)
    else (refresh msg ns).map (n :: ·)

/-- The table of the global cluster is searched first. -/
def updateLastSeen (msg : HeartBeatMessage) (s : PaxosNode) : Option PaxosNode :=
  match refresh msg s.clusterNodes with
  | some clusterNodes => some { s with clusterNodes }
  | none => (refresh msg s.localClusterNodes).map fun localClusterNodes =>
    { s with localClusterNodes }

def receiveHeartBeat (now : Int64) (msg : HeartBeatMessage) (s : PaxosNode) : PaxosNode :=
  match s.updateLastSeen msg with
  | some s => s
  | none => s.addNewNode now ⟨msg.nodeId,msg.nodeIp,msg.nodePort⟩ msg.clusterType

/-- The proposal messages are recognised and dropped. -/
def handlePaxosMessage (now : Int64) (msg : Message) (s : PaxosNode) : PaxosNode :=
  match msg with
  | .heartBeat m => s.receiveHeartBeat now m
  | _ => s

/-! ### Failure detection -/

/-- What the detector does to one entry. -/
def detectEntry (self now : Int64) (n : PaxosNodeDescriptor) : PaxosNodeDescriptor :=
  if n.nodeId = self then { n with isAlive := true }
  else if n.expired now ∧ n.isAlive then { n with isAlive := false }
  else n

def expires (self now : Int64) (n : PaxosNodeDescriptor) : Bool :=
  decide (n.nodeId ≠ self) && n.expired now && n.isAlive

/-- The sweep over `local_cluster_nodes`: entries are updated one after another, and the
hook is called with the table as it stands when the watched leader is found dead. -/
def sweepLocal {σ : Type} (onLeaderFailureDetected : List PaxosNodeDescriptor → σ → σ)
    (self watched now : Int64) :
    List PaxosNodeDescriptor → List PaxosNodeDescriptor → σ → List PaxosNodeDescriptor × σ
  | done, [], r => (done,r)
  | done, n::todo, r =>
    let n' := detectEntry self now n
    let r' := if expires self now n ∧ n.nodeId = watched
      then onLeaderFailureDetected (done ++ n' :: todo) r else r
    sweepLocal onLeaderFailureDetected self watched now (done ++ [n']) todo r'

end PaxosNode
end Kivi
