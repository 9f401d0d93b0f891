import Kivi.Leaf.Detection
import Kivi.Leaf.RestController
import Kivi.Core.LRURefinement

/-! A leaf as a machine: everything it reacts to, and what one reaction can do to its
identity, its table, its role, its store and the network. -/
namespace Kivi

open LinkedList (Fault)
open RecencyCache (Assoc)

/-- A round of the heartbeat thread, a pass of the detector, a message, a request of a
client, or a call of `run` or `pull_leader_data`. -/
inductive Input
  | heartbeat (now₁ now₂ : Int64) (unset : Int32)
  | detect (now promotedAt : Int64)
  | message (msg : Message) (clock : Clock) (order : HashOrder)
  | put (key value : Bytes) (now : Int64)
  | get (key : Option Bytes)
  | boot (unset : Int64)
  | pull

/-- The time `last_sync_time` is set to when the message is handled; only the messages with
data have one. -/
def Message.stamp : Message → Option Int64
  | .localSyncPush m => some m.latestSyncTimestamp
  | .localSyncResponse m => some m.latestSyncTimestamp
  | _ => none

namespace KiviLeaf

open PaxosNode (sendMessage sendAll detectEntry)
open RestController (acceptsPut)

def react (up : Reachability) (input : Input) (s : KiviLeaf) :
    Except Fault (KiviLeaf × List Packet) :=
  match input with
  | .heartbeat now₁ now₂ unset => .ok (s,s.iniateHeartbeat up now₁ now₂ unset)
  | .detect now promotedAt => .ok (s.detectFailures up now promotedAt)
  | .message msg clock order => s.handleMessage up clock order msg
  | .put key value now => do
    let (s,packets,_) ← RestController.put up now key value s
    return (s,packets)
  | .get key => do
    let (s,_) ← RestController.get key s
    return (s,[])
  | .boot unset => .ok (s.boot up unset)
  | .pull => .ok (s,(s.pullLeaderData up).packets)

end KiviLeaf

namespace PaxosNode

theorem mem_sendMessage {up : Reachability} {ip : Bytes} {port : Int32} {msg : Message}
    {p : Packet} (h : p ∈ (sendMessage up ip port msg).packets) :
    p = ⟨ip,port,msg⟩ ∧ up ip port = true := by
  unfold sendMessage RPCClient.send at h
  by_cases hup : up ip port = true
  · cases hser : msg.serialize with
    | error e => simp [hup,hser,bind,Except.bind] at h
    | ok data => exact ⟨by simpa [hup,hser] using h,hup⟩
  · simp [hup,Sending.none] at h

theorem mem_sendAll {up : Reachability} {nodes : List PaxosNodeDescriptor} {msg : Message}
    {p : Packet} (h : p ∈ (sendAll up nodes msg).packets) :
    ∃ n ∈ nodes, p = ⟨n.nodeIp,n.nodePort,msg⟩ ∧ up n.nodeIp n.nodePort = true := by
  induction nodes with
  | nil => simp [sendAll,Sending.none] at h
  | cons n nodes ih =>
    have hsplit : p ∈ (sendMessage up n.nodeIp n.nodePort msg).packets ∨
        p ∈ (sendAll up nodes msg).packets := List.mem_append.mp h
    rcases hsplit with hfirst | hrest
    · exact ⟨n,by simp,mem_sendMessage hfirst⟩
    · obtain ⟨m,hm,hp⟩ := ih hrest
      exact ⟨m,by simp [hm],hp⟩

theorem sendMessage_of_ok {msg : Message} {data : Bytes} (h : msg.serialize = .ok data)
    (up : Reachability) (ip : Bytes) (port : Int32) :
    sendMessage up ip port msg = ⟨if up ip port then [⟨ip,port,msg⟩] else [],none⟩ := by
  cases hup : up ip port <;> simp [sendMessage,RPCClient.send,hup,h,Sending.none]

theorem sendAll_of_ok {msg : Message} {data : Bytes} (h : msg.serialize = .ok data)
    (up : Reachability) (nodes : List PaxosNodeDescriptor) :
    sendAll up nodes msg = ⟨(nodes.filter fun n => up n.nodeIp n.nodePort).map
      fun n => ⟨n.nodeIp,n.nodePort,msg⟩,none⟩ := by
  induction nodes with
  | nil => rfl
  | cons n nodes ih =>
    have hcons : sendAll up (n::nodes) msg =
        (sendMessage up n.nodeIp n.nodePort msg).both (sendAll up nodes msg) := rfl
    rw [hcons,ih,sendMessage_of_ok h,Sending.both]
    cases hup : up n.nodeIp n.nodePort <;> simp [hup]

/-- A message without a text reaches nobody, and its exception comes from the first node
that was connected to. -/
theorem sendAll_of_error {msg : Message} {e : Json.Error} (h : msg.serialize = .error e)
    (up : Reachability) (nodes : List PaxosNodeDescriptor) : (sendAll up nodes msg).packets = [] ∧
      ((sendAll up nodes msg).thrown = none ↔ ∀ n ∈ nodes, up n.nodeIp n.nodePort = false) := by
  induction nodes with
  | nil => simp [sendAll,Sending.none]
  | cons n nodes ih =>
    have hcons : sendAll up (n::nodes) msg =
        (sendMessage up n.nodeIp n.nodePort msg).both (sendAll up nodes msg) := rfl
    rw [hcons,Sending.both,ih.1]
    cases hup : up n.nodeIp n.nodePort with
    | false =>
      have hone : sendMessage up n.nodeIp n.nodePort msg = .none := by
        simp [sendMessage,RPCClient.send,hup]
      simpa [hone,Sending.none,hup] using ih.2
    | true =>
      have hone : sendMessage up n.nodeIp n.nodePort msg = ⟨[],some e⟩ := by
        simp [sendMessage,RPCClient.send,hup,h,bind,Except.bind]
      simp [hone,hup]

theorem refresh_ids {msg : HeartBeatMessage} {ns ns' : List PaxosNodeDescriptor}
    (h : refresh msg ns = some ns') : ns'.map PaxosNodeDescriptor.nodeId =
      ns.map PaxosNodeDescriptor.nodeId := by
  induction ns generalizing ns' with
  | nil => simp [refresh] at h
  | cons n ns ih =>
    rw [refresh] at h
    by_cases hid : n.nodeId = msg.nodeId
    · rw [if_pos hid,Option.some.injEq] at h
      subst ns'
      rfl
    · rw [if_neg hid,Option.map_eq_some_iff] at h
      obtain ⟨ms,hms,rfl⟩ := h
      simp [ih hms]

theorem refresh_none {msg : HeartBeatMessage} {ns : List PaxosNodeDescriptor}
    (h : refresh msg ns = none) : msg.nodeId ∉ ns.map PaxosNodeDescriptor.nodeId := by
  induction ns with
  | nil => simp
  | cons n ns ih =>
    rw [refresh] at h
    by_cases hid : n.nodeId = msg.nodeId
    · simp [hid] at h
    · rw [if_neg hid,Option.map_eq_none_iff] at h
      simpa [Ne.symm hid] using ih h

theorem receiveHeartBeat_ids (now : Int64) (msg : HeartBeatMessage) (s : PaxosNode) :
    (s.receiveHeartBeat now msg).localClusterNodes.map PaxosNodeDescriptor.nodeId =
        s.localClusterNodes.map PaxosNodeDescriptor.nodeId ∨
      msg.nodeId ∉ s.localClusterNodes.map PaxosNodeDescriptor.nodeId ∧
        (s.receiveHeartBeat now msg).localClusterNodes.map PaxosNodeDescriptor.nodeId =
          s.localClusterNodes.map PaxosNodeDescriptor.nodeId ++ [msg.nodeId] := by
  cases hglobal : refresh msg s.clusterNodes with
  | some ns =>
    left
    simp [receiveHeartBeat,updateLastSeen,hglobal]
  | none =>
    cases hlocal : refresh msg s.localClusterNodes with
    | some ns =>
      left
      simpa [receiveHeartBeat,updateLastSeen,hglobal,hlocal] using refresh_ids hlocal
    | none =>
      by_cases htype : msg.clusterType = 1
      · left
        simp [receiveHeartBeat,updateLastSeen,hglobal,hlocal,addNewNode,htype]
      · right
        refine ⟨refresh_none hlocal,?_⟩
        simp [receiveHeartBeat,updateLastSeen,hglobal,hlocal,addNewNode,htype]

theorem receiveHeartBeat_identity (now : Int64) (msg : HeartBeatMessage) (s : PaxosNode) :
    (s.receiveHeartBeat now msg).nodeId = s.nodeId ∧
      (s.receiveHeartBeat now msg).nodeIp = s.nodeIp ∧
      (s.receiveHeartBeat now msg).nodePort = s.nodePort ∧
      (s.receiveHeartBeat now msg).localClusterLeader = s.localClusterLeader := by
  unfold receiveHeartBeat updateLastSeen
  cases hglobal : refresh msg s.clusterNodes with
  | some ns => simp
  | none =>
    cases hlocal : refresh msg s.localClusterNodes with
    | some ns => simp
    | none => by_cases htype : msg.clusterType = 1 <;> simp [addNewNode,htype]

end PaxosNode

namespace Input

open RestController (acceptsPut)

def writes (s : KiviLeaf) : Input → List (Σ _ : Bytes, Bytes)
  | .message (.localSyncPush req) _ _ => [⟨req.key,req.value⟩]
  | .message (.localSyncResponse res) _ order => (order.arrange res.payload.getPayload).entries
  | .put key value _ => if acceptsPut s ∧ key ≠ [] ∧ value ≠ [] then [⟨key,value⟩] else []
  | _ => []

/-- The reference cache of a leaf after an input. -/
def cacheAfter (s : KiviLeaf) (l : Assoc Bytes Bytes) : Input → Assoc Bytes Bytes
  | .get (some key) => (RecencyCache.get key l).1
  | input => RecencyCache.putAll s.kivi.engine.capacity (input.writes s) l

/-- What a leaf can send in reaction to an input, by the kind of the message. -/
def Sends (s : KiviLeaf) (input : Input) : Message → Prop
  | .heartBeat _ => ∃ now₁ now₂ unset, input = .heartbeat now₁ now₂ unset
  | .localSyncRequest m => m.followerNodeId = s.nodeId
  | .localSyncResponse m => m.leaderNodeId = s.nodeId ∧ ∃ req clock order,
      input = .message (.localSyncRequest req) clock order ∧
      m.payload = .loadFromMap clock.loadedAt (order.arrange s.kivi.getKvBatch)
  | .localSyncPush m => m.leaderNodeId = s.nodeId ∧
      input = .put m.key m.value m.latestSyncTimestamp ∧ acceptsPut s = true ∧
      m.key ≠ [] ∧ m.value ≠ []
  | .localSyncSelfPromotion m => m.leaderNodeId = s.nodeId ∧ ∃ now table,
      input = .detect now m.promotionTimestamp ∧ s.PromotesInPass now table
  | _ => False

end Input

namespace KiviLeaf

open PaxosNode (mem_sendMessage mem_sendAll detectEntry)
open RestController (acceptsPut)

variable {up : Reachability} {input : Input} {s : KiviLeaf} {r : KiviLeaf × List Packet}

/-- What a reaction of a leaf may change: never its identity nor the leader it watches, and
its role only in a pass that promotes it. -/
structure Reaction (s : KiviLeaf) (input : Input) (r : KiviLeaf × List Packet) : Prop where
  identity : r.1.nodeId = s.nodeId ∧ r.1.nodeIp = s.nodeIp ∧ r.1.nodePort = s.nodePort ∧
    r.1.localClusterLeader = s.localClusterLeader
  table : r.1.localClusterNodes.map PaxosNodeDescriptor.nodeId =
      s.localClusterNodes.map PaxosNodeDescriptor.nodeId ∨
    ∃ id ∉ s.localClusterNodes.map PaxosNodeDescriptor.nodeId,
      r.1.localClusterNodes.map PaxosNodeDescriptor.nodeId =
        s.localClusterNodes.map PaxosNodeDescriptor.nodeId ++ [id]
  election : r.1.leafRole = s.leafRole ∧ r.1.currentLeaderId = s.currentLeaderId ∨
    (∃ now promotedAt table, input = .detect now promotedAt ∧ s.PromotesInPass now table ∧
      r.1.leafRole = localLeader ∧ r.1.currentLeaderId = s.nodeId.toInt32) ∨
    ∃ m clock order, input = .message (.localSyncSelfPromotion m) clock order ∧
      r.1.leafRole = s.leafRole ∧ r.1.currentLeaderId = m.leaderNodeId.toInt32
  sends : ∀ p ∈ r.2, input.Sends s p.msg

theorem Reaction.of_same {r : KiviLeaf × List Packet}
    (hnode : r.1.toPaxosNode = s.toPaxosNode) (hrole : r.1.leafRole = s.leafRole)
    (hleader : r.1.currentLeaderId = s.currentLeaderId) (hsends : ∀ p ∈ r.2, input.Sends s p.msg) :
    Reaction s input r where
  identity := by simp [hnode]
  table := by simp [hnode]
  election := .inl ⟨hrole,hleader⟩
  sends := hsends

theorem reaction_heartbeat (now₁ now₂ : Int64) (unset : Int32) :
    Reaction s (.heartbeat now₁ now₂ unset) (s,s.iniateHeartbeat up now₁ now₂ unset) := by
  refine .of_same rfl rfl rfl fun p hp => ?_
  rcases List.mem_append.mp hp with hp | hp
  · obtain ⟨n,_,rfl,_⟩ := mem_sendAll hp
    exact ⟨now₁,now₂,unset,rfl⟩
  · obtain ⟨n,_,rfl,_⟩ := mem_sendAll hp
    exact ⟨now₁,now₂,unset,rfl⟩

theorem reaction_detect (now promotedAt : Int64) :
    Reaction s (.detect now promotedAt) (s.detectFailures up now promotedAt) := by
  have hids : (s.localClusterNodes.map (detectEntry s.nodeId now)).map
      PaxosNodeDescriptor.nodeId = s.localClusterNodes.map PaxosNodeDescriptor.nodeId := by
    simp [Function.comp_def]
  rcases detectFailures_spec up now promotedAt s with ⟨table,hp,hr⟩ | ⟨_,hr⟩
  · rw [hr]
    refine ⟨⟨rfl,rfl,rfl,rfl⟩,.inl hids,.inr (.inl ⟨now,promotedAt,table,rfl,hp,rfl,rfl⟩),?_⟩
    intro p hmem
    obtain ⟨n,_,rfl,_⟩ := mem_sendAll hmem
    exact ⟨rfl,now,table,rfl,hp⟩
  · rw [hr]
    exact ⟨⟨rfl,rfl,rfl,rfl⟩,.inl hids,.inl ⟨rfl,rfl⟩,by simp⟩

theorem reaction_pull (hnode : r.1.toPaxosNode = s.toPaxosNode) (hrole : r.1.leafRole = s.leafRole)
    (hleader : r.1.currentLeaderId = s.currentLeaderId)
    (hsent : r.2 = (r.1.pullLeaderData up).packets ∨ r.2 = []) : Reaction s input r := by
  refine .of_same hnode hrole hleader fun p hp => ?_
  rcases hsent with hsent | hsent
  · rw [hsent] at hp
    obtain ⟨rfl,_⟩ := mem_sendMessage hp
    change r.1.nodeId = s.nodeId
    rw [hnode]
  · simp [hsent] at hp

/-- Everything handling a message can do: store data, answer a request, follow a new leader
or update the membership. -/
theorem handleMessage_cases {msg : Message} {clock : Clock} {order : HashOrder}
    (h : s.handleMessage up clock order msg = .ok r) :
    (∃ ts kivi, msg.stamp = some ts ∧ r = ({ s with kivi, lastSyncTime := ts },[])) ∨
    msg.stamp = none ∧
      (r = (s,[]) ∨
      (∃ req requester, msg = .localSyncRequest req ∧
        r = (s,(s.pushLeaderData up clock order requester).packets)) ∨
      (∃ res, msg = .localSyncSelfPromotion res ∧
        r = (s.followLeader res.leaderNodeId clock.now,
          ((s.followLeader res.leaderNodeId clock.now).pullLeaderData up).packets)) ∨
      ∃ m, msg = .heartBeat m ∧
        r = ({ s with toPaxosNode := s.toPaxosNode.receiveHeartBeat clock.now m },[])) := by
  cases msg with
  | localSyncPush req =>
    obtain ⟨kivi,_,hr⟩ := except_bind_eq_ok.mp h
    exact .inl ⟨_,kivi,rfl,(Except.ok.inj hr).symm⟩
  | localSyncResponse res =>
    obtain ⟨kivi,_,hr⟩ := except_bind_eq_ok.mp h
    exact .inl ⟨_,kivi,rfl,(Except.ok.inj hr).symm⟩
  | localSyncRequest req =>
    right
    refine ⟨rfl,?_⟩
    unfold handleMessage at h
    cases hfind : s.localClusterNodes.find? fun n => decide (n.nodeId = req.followerNodeId) with
    | none =>
      simp only [hfind] at h
      exact .inl (Except.ok.inj h).symm
    | some requester =>
      simp only [hfind] at h
      exact .inr (.inl ⟨req,requester,rfl,(Except.ok.inj h).symm⟩)
  | localSyncSelfPromotion res =>
    exact .inr ⟨rfl,.inr (.inr (.inl ⟨res,rfl,(Except.ok.inj h).symm⟩))⟩
  | heartBeat m => exact .inr ⟨rfl,.inr (.inr (.inr ⟨m,rfl,(Except.ok.inj h).symm⟩))⟩
  | prepare m => exact .inr ⟨rfl,.inl (Except.ok.inj h).symm⟩
  | promise m => exact .inr ⟨rfl,.inl (Except.ok.inj h).symm⟩
  | accept m => exact .inr ⟨rfl,.inl (Except.ok.inj h).symm⟩
  | accepted m => exact .inr ⟨rfl,.inl (Except.ok.inj h).symm⟩

theorem reaction_message {msg : Message} {clock : Clock} {order : HashOrder}
    (h : s.handleMessage up clock order msg = .ok r) : Reaction s (.message msg clock order) r := by
  rcases handleMessage_cases h with ⟨ts,kivi,_,rfl⟩ | ⟨_,rfl | ⟨req,requester,rfl,rfl⟩ |
    ⟨res,rfl,rfl⟩ | ⟨m,rfl,rfl⟩⟩
  · exact .of_same rfl rfl rfl (by simp)
  · exact .of_same rfl rfl rfl (by simp)
  · refine .of_same rfl rfl rfl fun p hp => ?_
    obtain ⟨rfl,_⟩ := mem_sendMessage hp
    exact ⟨rfl,req,clock,order,rfl,rfl⟩
  · refine ⟨⟨rfl,rfl,rfl,rfl⟩,.inl rfl,.inr (.inr ⟨res,clock,order,rfl,rfl,rfl⟩),fun p hp => ?_⟩
    obtain ⟨rfl,_⟩ := mem_sendMessage hp
    exact rfl
  · have hids := PaxosNode.receiveHeartBeat_ids clock.now m s.toPaxosNode
    have hid := PaxosNode.receiveHeartBeat_identity clock.now m s.toPaxosNode
    refine ⟨hid,?_,.inl ⟨rfl,rfl⟩,by simp⟩
    rcases hids with hids | ⟨hnew,hids⟩
    · exact .inl hids
    · exact .inr ⟨m.nodeId,hnew,hids⟩

theorem ofError_status (status : ℕ) (text : String) :
    (Response.ofError status text).status = status ∨ (Response.ofError status text).status = 500 := by
  unfold Response.ofError Response.ofContent
  split
  · exact .inl rfl
  · exact .inr rfl

theorem redirect_status (s : KiviLeaf) : (RestController.redirect s).status ≠ 200 := by
  have herror := ofError_status 503 "Leader not available"
  unfold RestController.redirect
  split
  · omega
  · dsimp only
    split
    · simp
    · dsimp only
      omega

theorem put_cases {now : Int64} {key value : Bytes} {s' : KiviLeaf} {packets : List Packet}
    {response : Response} (h : RestController.put up now key value s = .ok (s',packets,response)) :
    (¬ (acceptsPut s = true ∧ key ≠ [] ∧ value ≠ []) ∧ s' = s ∧ packets = [] ∧
      response.status ≠ 200) ∨
    (acceptsPut s = true ∧ key ≠ [] ∧ value ≠ []) ∧ ∃ kivi, s.kivi.put key value = .ok kivi ∧
      s' = { s with kivi } ∧ packets = (pushToFollowers up now key value { s with kivi }).packets := by
  unfold RestController.put at h
  by_cases hacc : acceptsPut s = true
  swap
  · rw [if_pos hacc] at h
    obtain ⟨rfl,hrest⟩ := Prod.mk.inj (Except.ok.inj h)
    obtain ⟨rfl,rfl⟩ := Prod.mk.inj hrest
    exact .inl ⟨fun hall => hacc hall.1,rfl,rfl,redirect_status s⟩
  rw [if_neg (not_not_intro hacc)] at h
  by_cases hempty : key = [] ∨ value = []
  · rw [if_pos hempty] at h
    obtain ⟨rfl,hrest⟩ := Prod.mk.inj (Except.ok.inj h)
    obtain ⟨rfl,rfl⟩ := Prod.mk.inj hrest
    have herror := ofError_status 400 "Missing 'key' or 'value' parameter"
    exact .inl ⟨fun hall => hempty.elim hall.2.1 hall.2.2,rfl,rfl,by omega⟩
  · rw [if_neg hempty] at h
    obtain ⟨kivi,hkivi,hr⟩ := except_bind_eq_ok.mp h
    refine .inr ⟨⟨hacc,not_or.mp hempty⟩,kivi,hkivi,?_⟩
    dsimp only at hr
    split at hr
    · obtain ⟨rfl,hrest⟩ := Prod.mk.inj (Except.ok.inj hr)
      obtain ⟨rfl,_⟩ := Prod.mk.inj hrest
      exact ⟨rfl,rfl⟩
    · obtain ⟨rfl,hrest⟩ := Prod.mk.inj (Except.ok.inj hr)
      obtain ⟨rfl,_⟩ := Prod.mk.inj hrest
      exact ⟨rfl,rfl⟩

theorem reaction_put {key value : Bytes} {now : Int64}
    (h : s.react up (.put key value now) = .ok r) : Reaction s (.put key value now) r := by
  obtain ⟨⟨s',packets,response⟩,hput,hr⟩ := except_bind_eq_ok.mp h
  obtain rfl := Except.ok.inj hr
  rcases put_cases hput with ⟨_,rfl,rfl,_⟩ | ⟨⟨hacc,hk,hv⟩,kivi,_,rfl,rfl⟩
  · exact .of_same rfl rfl rfl (by simp)
  · refine .of_same rfl rfl rfl fun p hp => ?_
    obtain ⟨n,_,rfl,_⟩ := mem_sendAll hp
    exact ⟨rfl,rfl,hacc,hk,hv⟩

theorem get_cases {key : Option Bytes} {s' : KiviLeaf} {response : Response}
    (h : RestController.get key s = .ok (s',response)) :
    s' = s ∧ key = none ∨ ∃ k kivi v, key = some k ∧ s.kivi.get k = .ok (kivi,v) ∧
      s' = { s with kivi } := by
  unfold RestController.get at h
  cases key with
  | none =>
    obtain ⟨rfl,_⟩ := Prod.mk.inj (Except.ok.inj h)
    exact .inl ⟨rfl,rfl⟩
  | some key =>
    obtain ⟨⟨kivi,v⟩,hkivi,hr⟩ := except_bind_eq_ok.mp h
    refine .inr ⟨key,kivi,v,rfl,hkivi,?_⟩
    cases v with
    | none => exact (Prod.mk.inj (Except.ok.inj hr)).1.symm
    | some value => exact (Prod.mk.inj (Except.ok.inj hr)).1.symm

theorem boot_cases (up : Reachability) (unset : Int64) (s : KiviLeaf) :
    (s.boot up unset).1.toPaxosNode = s.toPaxosNode ∧
      (s.boot up unset).1.leafRole = s.leafRole ∧
      (s.boot up unset).1.currentLeaderId = s.currentLeaderId ∧
      (s.boot up unset).1.kivi = s.kivi ∧
      ((s.boot up unset).2 = ((s.boot up unset).1.pullLeaderData up).packets ∨
        (s.boot up unset).2 = []) := by
  unfold boot
  cases hleader : s.getCurrentLeader unset with
  | none => simp
  | some leader => by_cases hself : s.nodeId ≠ leader.nodeId <;> simp [hself]

theorem react_reaction (h : s.react up input = .ok r) : Reaction s input r := by
  cases input with
  | heartbeat now₁ now₂ unset =>
    obtain rfl := Except.ok.inj h
    exact reaction_heartbeat now₁ now₂ unset
  | detect now promotedAt =>
    obtain rfl := Except.ok.inj h
    exact reaction_detect now promotedAt
  | message msg clock order => exact reaction_message h
  | put key value now => exact reaction_put h
  | get key =>
    obtain ⟨⟨s',response⟩,hget,hr⟩ := except_bind_eq_ok.mp h
    obtain rfl := Except.ok.inj hr
    rcases get_cases hget with ⟨rfl,_⟩ | ⟨_,_,_,_,_,rfl⟩
    · exact .of_same rfl rfl rfl (by simp)
    · exact .of_same rfl rfl rfl (by simp)
  | boot unset =>
    obtain rfl := Except.ok.inj h
    obtain ⟨hnode,hrole,hleader,_,hsent⟩ := boot_cases up unset s
    exact reaction_pull hnode hrole hleader hsent
  | pull =>
    obtain rfl := Except.ok.inj h
    exact reaction_pull rfl rfl rfl (.inl rfl)

/-! ### The store -/

theorem put_represents (up : Reachability) (now : Int64) (key value : Bytes)
    {l : Assoc Bytes Bytes} (hc : 1 ≤ s.kivi.engine.capacity)
    (hl : s.kivi.engine.Represents l) :
    ∃ r, RestController.put up now key value s = .ok r ∧
      r.1.kivi.engine.capacity = s.kivi.engine.capacity ∧
      r.1.kivi.engine.Represents ((Input.put key value now).cacheAfter s l) := by
  unfold RestController.put
  by_cases hacc : acceptsPut s = true
  swap
  · refine ⟨_,if_pos hacc,rfl,?_⟩
    simpa [Input.cacheAfter,Input.writes,RecencyCache.putAll,hacc] using hl
  rw [if_neg (not_not_intro hacc)]
  by_cases hempty : key = [] ∨ value = []
  · refine ⟨_,if_pos hempty,rfl,?_⟩
    have hnot : ¬ (key ≠ [] ∧ value ≠ []) := fun hboth => hempty.elim hboth.1 hboth.2
    simpa only [Input.cacheAfter,Input.writes,RecencyCache.putAll,hacc,true_and,if_neg hnot] using hl
  · obtain ⟨engine,hput,hcap,hr⟩ := LRUStore.put_spec hc hl key value
    have hkivi : s.kivi.put key value = .ok ⟨engine⟩ := by
      simp only [KiviTree.put,hput,except_bind_ok,except_pure]
    have hwrites : (Input.put key value now).writes s = [⟨key,value⟩] :=
      if_pos ⟨hacc,not_or.mp hempty⟩
    have hafter : (Input.put key value now).cacheAfter s l =
        RecencyCache.put s.kivi.engine.capacity key value l := by
      simp only [Input.cacheAfter,hwrites,RecencyCache.putAll]
    rw [if_neg hempty,hkivi,hafter]
    cases hthrown : (pushToFollowers up now key value { s with kivi := ⟨engine⟩ }).thrown with
    | none => exact ⟨_,by simp only [except_bind_ok,hthrown]; rfl,hcap,hr⟩
    | some e => exact ⟨_,by simp only [except_bind_ok,hthrown]; rfl,hcap,hr⟩

theorem message_represents (up : Reachability) (msg : Message) (clock : Clock) (order : HashOrder)
    {l : Assoc Bytes Bytes} (hc : 1 ≤ s.kivi.engine.capacity)
    (hl : s.kivi.engine.Represents l) :
    ∃ r, s.handleMessage up clock order msg = .ok r ∧
      r.1.kivi.engine.capacity = s.kivi.engine.capacity ∧
      r.1.kivi.engine.Represents ((Input.message msg clock order).cacheAfter s l) := by
  cases msg with
  | localSyncPush req =>
    obtain ⟨engine,hput,hcap,hr⟩ := LRUStore.put_spec hc hl req.key req.value
    refine ⟨({ s with kivi := ⟨engine⟩, lastSyncTime := req.latestSyncTimestamp },[]),?_,hcap,hr⟩
    simp only [handleMessage,KiviTree.put,hput,except_bind_ok,except_pure]
  | localSyncResponse res =>
    obtain ⟨engine,hput,hcap,hr⟩ := LRUStore.putEach_spec
      (order.arrange res.payload.getPayload).entries hc hl
    refine ⟨({ s with kivi := ⟨engine⟩, lastSyncTime := res.latestSyncTimestamp },[]),?_,hcap,hr⟩
    simp only [handleMessage,KiviTree.setKvBatch,LRUStore.setKvBatch,hput,except_bind_ok,except_pure]
  | localSyncRequest req =>
    unfold handleMessage
    cases hfind : s.localClusterNodes.find? fun n => decide (n.nodeId = req.followerNodeId) with
    | none => exact ⟨(s,[]),by simp only [hfind]; rfl,rfl,hl⟩
    | some n => exact ⟨(s,(s.pushLeaderData up clock order n).packets),by simp only [hfind]; rfl,rfl,hl⟩
  | _ => exact ⟨_,rfl,rfl,hl⟩

/-- A reaction never faults and takes the cache the store holds to the one expected. -/
theorem react_represents (up : Reachability) (input : Input) {l : Assoc Bytes Bytes}
    (hc : 1 ≤ s.kivi.engine.capacity) (hl : s.kivi.engine.Represents l) :
    ∃ r, s.react up input = .ok r ∧ r.1.kivi.engine.capacity = s.kivi.engine.capacity ∧
      r.1.kivi.engine.Represents (input.cacheAfter s l) := by
  cases input with
  | heartbeat now₁ now₂ unset => exact ⟨_,rfl,rfl,hl⟩
  | detect now promotedAt =>
    have hkivi : (s.detectFailures up now promotedAt).1.kivi = s.kivi := by
      rcases detectFailures_spec up now promotedAt s with ⟨table,_,hr⟩ | ⟨_,hr⟩
      · rw [hr]
        rfl
      · rw [hr]
    exact ⟨_,rfl,by rw [hkivi],by rw [hkivi]; exact hl⟩
  | message msg clock order => exact message_represents up msg clock order hc hl
  | put key value now =>
    obtain ⟨r,hput,hcap,hr⟩ := put_represents up now key value hc hl
    exact ⟨(r.1,r.2.1),by simp only [react,hput,except_bind_ok,except_pure],hcap,hr⟩
  | get key =>
    cases key with
    | none => exact ⟨(s,[]),rfl,rfl,hl⟩
    | some key =>
      obtain ⟨engine,hget,hcap,_,hr⟩ := LRUStore.get_spec hl key
      have hkivi : s.kivi.get key = .ok (⟨engine⟩,(RecencyCache.get key l).2) := by
        simp only [KiviTree.get,hget,except_bind_ok,except_pure]
      refine ⟨({ s with kivi := ⟨engine⟩ },[]),?_,hcap,hr⟩
      cases hv : (RecencyCache.get key l).2 <;>
        simp only [react,RestController.get,hkivi,hv,except_bind_ok,except_pure]
  | boot unset =>
    have hkivi := (boot_cases up unset s).2.2.2.1
    exact ⟨_,rfl,by rw [hkivi],by rw [hkivi]; exact hl⟩
  | pull => exact ⟨_,rfl,rfl,hl⟩

theorem represents_of_react {l : Assoc Bytes Bytes} (hc : 1 ≤ s.kivi.engine.capacity)
    (hl : s.kivi.engine.Represents l) (hr : s.react up input = .ok r) :
    r.1.kivi.engine.capacity = s.kivi.engine.capacity ∧
      r.1.kivi.engine.Represents (input.cacheAfter s l) := by
  obtain ⟨r',hr',hafter⟩ := react_represents up input hc hl
  obtain rfl : r = r' := Except.ok.inj (hr.symm.trans hr')
  exact hafter

/-! ### Several leaves -/

section Leaves

variable {ι : Type} {capacity : ℕ} {leaf : ι → KiviLeaf} {l : ι → Assoc Bytes Bytes}

def Holds (capacity : ℕ) (leaf : ι → KiviLeaf) (l : ι → Assoc Bytes Bytes) : Prop :=
  ∀ i, (leaf i).kivi.engine.capacity = capacity ∧ (leaf i).kivi.engine.Represents (l i)

theorem holds_new (h : ∀ i, (leaf i).kivi = .new capacity) : Holds capacity leaf fun _ => ∅ := by
  intro i
  rw [h]
  exact ⟨rfl,LRUStore.represents_new capacity⟩

theorem Holds.lookup (h : Holds capacity leaf l) (i : ι) (k : Bytes) :
    (leaf i).kivi.getKvBatch.lookup k = (l i).lookup k := (h i).2.lookup k

theorem Holds.react [DecidableEq ι] (hc : 1 ≤ capacity) (h : Holds capacity leaf l) {i : ι}
    {up : Reachability} {input : Input} {r : KiviLeaf × List Packet}
    (hr : (leaf i).react up input = .ok r) : Holds capacity (Function.update leaf i r.1)
      (Function.update l i (input.cacheAfter (leaf i) (l i))) := by
  obtain ⟨hcap,hl⟩ := h i
  have hafter := represents_of_react (by omega) hl hr
  intro j
  by_cases hj : j = i
  · subst j
    rw [Function.update_self,Function.update_self]
    exact ⟨hafter.1.trans hcap,hafter.2⟩
  · rw [Function.update_of_ne hj,Function.update_of_ne hj]
    exact h j

end Leaves

end KiviLeaf
end Kivi
