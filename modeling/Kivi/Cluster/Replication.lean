import Kivi.Library.LogShipping
import Kivi.Cluster.System

/-! Replication under a leader that stays. Between any two nodes messages travel in order,
none is lost and none is delivered twice. -/
namespace Kivi

open Transition (Run Taken)
open RecencyCache (Assoc)
open LogShipping (Update)
open Bytes (isUtf8)
open Cluster (reachable firstNode secondNode)

def PaxosNode.address (s : PaxosNode) : Bytes × Int32 := (s.nodeIp,s.nodePort)

namespace PaxosNode

theorem sendMessage_of_clean {msg : Message} (h : msg.Clean) (ip : Bytes) (port : Int32) :
    sendMessage reachable ip port msg = ⟨[⟨ip,port,msg⟩],none⟩ := by
  obtain ⟨j,_,hser,_⟩ := Message.fromJson_serialize .reference h
  exact sendMessage_of_ok hser reachable ip port

theorem sendAll_of_clean {msg : Message} (h : msg.Clean) (nodes : List PaxosNodeDescriptor) :
    (sendAll reachable nodes msg).packets = nodes.map fun n => ⟨n.nodeIp,n.nodePort,msg⟩ := by
  obtain ⟨j,_,hser,_⟩ := Message.fromJson_serialize .reference h
  rw [sendAll_of_ok hser]
  simp [reachable]

end PaxosNode

def addressed (node : PaxosNode) (packets : List Packet) : List Message :=
  packets.filterMap fun p => if (p.nodeIp,p.nodePort) = node.address then some p.msg else none

theorem mem_addressed {node : PaxosNode} {packets : List Packet} {msg : Message}
    (h : msg ∈ addressed node packets) :
    ∃ p ∈ packets, p.msg = msg ∧ (p.nodeIp,p.nodePort) = node.address := by
  obtain ⟨p,hp,hif⟩ := List.mem_filterMap.mp h
  by_cases haddr : (p.nodeIp,p.nodePort) = node.address
  · rw [if_pos haddr] at hif
    exact ⟨p,hp,Option.some.inj hif,haddr⟩
  · simp [haddr] at hif

theorem addressed_sendAll {msg : Message} (h : msg.Clean) {nodes : List PaxosNodeDescriptor}
    (hn : (nodes.map PaxosNodeDescriptor.address).Nodup) (node : PaxosNode) :
    addressed node (PaxosNode.sendAll reachable nodes msg).packets =
      if node.address ∈ nodes.map PaxosNodeDescriptor.address then [msg] else [] := by
  rw [PaxosNode.sendAll_of_clean h]
  induction nodes with
  | nil => rfl
  | cons n nodes ih =>
    obtain ⟨hnot,hrest⟩ := List.nodup_cons.mp hn
    have htail := ih hrest
    simp only [addressed,List.map_cons,List.mem_cons] at htail ⊢
    by_cases hfirst : n.address = node.address
    · rw [hfirst] at hnot
      rw [if_neg hnot] at htail
      rw [List.filterMap_cons_some (by exact if_pos hfirst),htail,if_pos (.inl hfirst.symm)]
    · rw [List.filterMap_cons_none (by exact if_neg hfirst),htail]
      simp [Ne.symm hfirst]

/-! ### The system -/

/-- The leaves, and for each two of them the messages on their way from the first to the
second, the oldest first. -/
structure FifoCluster (ι : Type) where
  leaf : ι → KiviLeaf
  channel : ι → ι → List Message

namespace FifoCluster

/-- A request of a client, a call of `pull_leader_data`, or the arrival at node `j` of the
oldest message from node `i`. -/
inductive Event (ι : Type)
  | put (key value : Bytes) (now : Int64)
  | get (i : ι) (key : Option Bytes)
  | pull (i : ι)
  | deliver (i j : ι) (clock : Clock) (order : HashOrder)

variable {ι : Type} [DecidableEq ι]

def reacted (i : ι) (r : KiviLeaf × List Packet) (s : FifoCluster ι) : FifoCluster ι where
  leaf := Function.update s.leaf i r.1
  channel := Function.update s.channel i fun j =>
    s.channel i j ++ addressed (s.leaf j).toPaxosNode r.2

/-- Every connection is made and every message sent arrives. -/
def react (i : ι) (input : Input) (s : FifoCluster ι) : Option (FifoCluster ι) :=
  match (s.leaf i).react reachable input with
  | .ok r => some (s.reacted i r)
  | .error _ => none

def taken (i j : ι) (rest : List Message) (s : FifoCluster ι) : FifoCluster ι :=
  { s with channel := Function.update s.channel i (Function.update (s.channel i) j rest) }

/-- Clients put at the leader only, and only followers pull. -/
def step (leader : ι) (s : FifoCluster ι) : Event ι → Option (FifoCluster ι)
  | .put key value now => s.react leader (.put key value now)
  | .get i key => s.react i (.get key)
  | .pull i => if i = leader then none else s.react i .pull
  | .deliver i j clock order => match s.channel i j with
    | [] => none
    | msg::rest => (s.taken i j rest).react j (.message msg clock order)

def start (c : ι → KiviLeaf) : FifoCluster ι := ⟨c,fun _ _ => []⟩

theorem react_eq_some {i : ι} {input : Input} {s t : FifoCluster ι} (h : s.react i input = some t) :
    ∃ r, (s.leaf i).react reachable input = .ok r ∧ t = s.reacted i r := by
  unfold react at h
  split at h
  · rename_i r hr
    exact ⟨r,hr,(Option.some.inj h).symm⟩
  · simp at h

/-! ### One of the ways a network may behave -/

/-- A cluster in the same state, whose network still has all messages on their way. -/
structure Embeds (s : FifoCluster ι) (t : Cluster ι) : Prop where
  leaf : t.leaf = s.leaf
  running : ∀ i, t.running i = true
  sent : ∀ i j, ∀ msg ∈ s.channel i j, ∃ p ∈ t.sent, p.msg = msg ∧
    (p.nodeIp,p.nodePort) = (s.leaf j).address

theorem Embeds.react {s s' : FifoCluster ι} {t : Cluster ι} (h : Embeds s t) {i : ι}
    {input : Input} (hstep : s.react i input = some s') {e : Kivi.Event ι}
    (he : t.reaction e = some (i,reachable,input)) : ∃ t', t.step e = some t' ∧ Embeds s' t' := by
  obtain ⟨r,hr,rfl⟩ := react_eq_some hstep
  have haddress : ∀ j, ((s.reacted i r).leaf j).address = (s.leaf j).address := by
    intro j
    by_cases hj : j = i
    · subst j
      obtain ⟨_,hip,hport,_⟩ := (KiviLeaf.react_reaction hr).identity
      simp [reacted,PaxosNode.address,hip,hport]
    · simp [reacted,Function.update_of_ne hj]
  refine ⟨_,Cluster.step_of_reaction he (h.running i) (h.leaf ▸ hr),?_,h.running,?_⟩
  · simp [Cluster.reacted,reacted,h.leaf]
  · intro k j msg hmsg
    rw [haddress]
    have hold : msg ∈ s.channel k j → ∃ p ∈ t.sent ++ r.2, p.msg = msg ∧
        (p.nodeIp,p.nodePort) = (s.leaf j).address := by
      intro hmem
      obtain ⟨p,hp,hrest⟩ := h.sent k j msg hmem
      exact ⟨p,List.mem_append_left _ hp,hrest⟩
    by_cases hk : k = i
    · subst k
      simp only [reacted,Function.update_self,List.mem_append] at hmsg
      rcases hmsg with hmsg | hmsg
      · exact hold hmsg
      · obtain ⟨p,hp,hrest⟩ := mem_addressed hmsg
        exact ⟨p,List.mem_append_right _ hp,hrest⟩
    · simp only [reacted,Function.update_of_ne hk] at hmsg
      exact hold hmsg

theorem Embeds.step {leader : ι} {s s' : FifoCluster ι} {t : Cluster ι} (h : Embeds s t)
    {e : Event ι} (hstep : s.step leader e = some s') : ∃ e' t', t.step e' = some t' ∧ Embeds s' t' := by
  cases e with
  | put key value now =>
    exact ⟨.input leader reachable (.put key value now),h.react hstep rfl⟩
  | get i key => exact ⟨.input i reachable (.get key),h.react hstep rfl⟩
  | pull i =>
    by_cases hi : i = leader
    · simp [FifoCluster.step,hi] at hstep
    · simp only [FifoCluster.step,if_neg hi] at hstep
      exact ⟨.input i reachable .pull,h.react hstep rfl⟩
  | deliver i j clock order =>
    cases hchan : s.channel i j with
    | nil => simp [FifoCluster.step,hchan] at hstep
    | cons msg rest =>
      simp only [FifoCluster.step,hchan] at hstep
      obtain ⟨p,hp,hmsg,haddr⟩ := h.sent i j msg (by simp [hchan])
      obtain ⟨n,hn,hget⟩ := List.getElem_of_mem hp
      have hrest : Embeds (s.taken i j rest) t := by
        refine ⟨h.leaf,h.running,fun k l msg' hmem => h.sent k l msg' ?_⟩
        by_cases hk : k = i
        · subst k
          by_cases hl : l = j
          · subst l
            simp only [taken,Function.update_self] at hmem
            rw [hchan]
            exact List.mem_cons_of_mem _ hmem
          · simpa [taken,Function.update_of_ne hl] using hmem
        · simpa [taken,Function.update_of_ne hk] using hmem
      have haddr' : p.nodeIp = (t.leaf j).nodeIp ∧ p.nodePort = (t.leaf j).nodePort := by
        rw [h.leaf]
        exact Prod.mk.inj haddr
      have hreaction : t.reaction (.deliver j reachable n clock order) =
          some (j,reachable,.message msg clock order) := by
        simp [Cluster.reaction,List.getElem?_eq_getElem hn,hget,haddr',hmsg]
      exact ⟨_,hrest.react hstep hreaction⟩

/-- Every run is a run of the cluster, whose network may do all this one does. -/
theorem embeds_of_run {leader : ι} {c : ι → KiviLeaf} {s : FifoCluster ι}
    {history : List (Taken (FifoCluster ι) (Event ι))}
    (hrun : Run (step leader) (start c) history s) :
    ∃ history' t, Run Cluster.step ⟨c,fun _ => true,[]⟩ history' t ∧ Embeds s t := by
  induction hrun with
  | nil => exact ⟨[],_,.nil,rfl,fun _ => rfl,by simp [start]⟩
  | snoc _ hstep ih =>
    obtain ⟨history',t,hrun',h⟩ := ih
    obtain ⟨e',t',hstep',h'⟩ := h.step hstep
    exact ⟨_,t',hrun'.snoc hstep',h'⟩

end FifoCluster

/-! ### The nodes -/

/-- The fixed leader accepts writes and lists every node under its address, as alive and
once; the others take its address for that of the leader. All stores are empty. -/
structure Assembled {ι : Type} (leader : ι) (capacity : ℕ) (c : ι → KiviLeaf) : Prop where
  stores : ∀ i, (c i).kivi = .new capacity
  ids : Function.Injective fun i => (c i).nodeId
  addresses : Function.Injective fun i => (c i).address
  accepts : RestController.acceptsPut (c leader) = true
  listed : ∀ i, ∃ n ∈ (c leader).localClusterNodes, n.nodeId = (c i).nodeId ∧
    n.address = (c i).address ∧ n.isAlive = true
  idsOnce : ((c leader).localClusterNodes.map PaxosNodeDescriptor.nodeId).Nodup
  addressesOnce : ((c leader).localClusterNodes.map PaxosNodeDescriptor.address).Nodup
  follows : ∀ i, i ≠ leader → (c i).currentLeader.address = (c leader).address

structure KiviLeaf.SameSeat (s t : KiviLeaf) : Prop where
  node : t.toPaxosNode = s.toPaxosNode
  leaderId : t.currentLeaderId = s.currentLeaderId
  leader : t.currentLeader = s.currentLeader

namespace Assembled

open PaxosNode (sendAll sendMessage)

variable {ι : Type} {leader : ι} {capacity : ℕ} {c : ι → KiviLeaf} {s : KiviLeaf}

theorem mem_followers (h : Assembled leader capacity c) (hs : (c leader).SameSeat s) (i : ι) :
    (c i).address ∈ s.followers.map PaxosNodeDescriptor.address ↔ i ≠ leader := by
  simp only [KiviLeaf.followers,hs.node,List.mem_map,List.mem_filter,Bool.and_eq_true,
    decide_eq_true_eq]
  obtain ⟨n,hn,hid,haddr,halive⟩ := h.listed i
  constructor
  · rintro ⟨m,⟨hm,hne,_⟩,hmaddr⟩ rfl
    have hmn : m = n := List.inj_on_of_nodup_map h.addressesOnce hm hn (hmaddr.trans haddr.symm)
    exact hne (hmn ▸ hid)
  · intro hi
    refine ⟨n,⟨hn,fun heq => hi ?_,halive⟩,haddr⟩
    exact h.ids (hid.symm.trans heq)

theorem addressed_push [DecidableEq ι] (h : Assembled leader capacity c)
    (hs : (c leader).SameSeat s) {key value : Bytes} (hk : isUtf8 key = true)
    (hv : isUtf8 value = true) (now : Int64) {i : ι} {node : PaxosNode}
    (hnode : node.address = (c i).address) :
    addressed node (s.pushToFollowers reachable now key value).packets =
      if i = leader then [] else [.localSyncPush ⟨s.nodeId,now,key,value⟩] := by
  have hclean : (Message.localSyncPush ⟨s.nodeId,now,key,value⟩).Clean := ⟨hk,hv⟩
  have honce : (s.followers.map PaxosNodeDescriptor.address).Nodup := by
    have hsub : s.followers.Sublist (c leader).localClusterNodes := by
      rw [KiviLeaf.followers,hs.node]
      exact List.filter_sublist
    exact h.addressesOnce.sublist (hsub.map _)
  rw [KiviLeaf.pushToFollowers,addressed_sendAll hclean honce,hnode]
  by_cases hi : i = leader
  · rw [if_pos hi,if_neg fun hmem => (h.mem_followers hs i).mp hmem hi]
  · rw [if_neg hi,if_pos ((h.mem_followers hs i).mpr hi)]

theorem addressed_single [DecidableEq ι] (h : Assembled leader capacity c) {msg : Message}
    (hclean : msg.Clean) {ip : Bytes} {port : Int32} {i j : ι} (hi : (ip,port) = (c i).address)
    {node : PaxosNode} (hj : node.address = (c j).address) :
    addressed node (sendMessage reachable ip port msg).packets = if j = i then [msg] else [] := by
  rw [PaxosNode.sendMessage_of_clean hclean]
  by_cases hij : j = i
  · subst j
    simp [addressed,hi,hj]
  · have hne : (c i).address ≠ (c j).address := fun heq => hij (h.addresses heq).symm
    simp [addressed,hi,hj,hij,hne]

theorem find_requester (h : Assembled leader capacity c) (hs : (c leader).SameSeat s) (i : ι) :
    ∃ n, (s.localClusterNodes.find? fun n => decide (n.nodeId = (c i).nodeId)) = some n ∧
      n.address = (c i).address := by
  obtain ⟨n,hn,hid,haddr,_⟩ := h.listed i
  rw [hs.node]
  have hfind := find?_of_nodup h.idsOnce hn
  rw [hid] at hfind
  exact ⟨n,hfind,haddr⟩

end Assembled

/-! ### The log -/

def Message.update : Message → Option (Update Bytes Bytes)
  | .localSyncPush m => some (.put ⟨m.key,m.value⟩)
  | .localSyncResponse m => some (.snapshot m.payload.getPayload)
  | _ => none

theorem Message.update_writes {msg : Message} {u : Update Bytes Bytes} (h : msg.update = some u)
    (s : KiviLeaf) (clock : Clock) (order : HashOrder) :
    u.Enumerates ((Input.message msg clock order).writes s) := by
  cases msg with
  | localSyncPush m =>
    obtain rfl := Option.some.inj h
    rfl
  | localSyncResponse m =>
    obtain rfl := Option.some.inj h
    exact order.perm _
  | _ => simp [update] at h

theorem KiviLeaf.handle_update {msg : Message} {u : Update Bytes Bytes} (hu : msg.update = some u)
    {up : Reachability} {clock : Clock} {order : HashOrder} {s : KiviLeaf}
    {r : KiviLeaf × List Packet} (hr : s.react up (.message msg clock order) = .ok r) :
    s.SameSeat r.1 ∧ r.2 = [] := by
  have hstamp : msg.stamp ≠ none := by
    cases msg with
    | localSyncPush m => simp [Message.stamp]
    | localSyncResponse m => simp [Message.stamp]
    | _ => simp [Message.update] at hu
  rcases handleMessage_cases hr with ⟨ts,kivi,_,rfl⟩ | ⟨hnone,_⟩
  · exact ⟨⟨rfl,rfl,rfl⟩,rfl⟩
  · exact absurd hnone hstamp

namespace FifoCluster

open KiviLeaf (Holds)
open LogShipping (State Step)

variable {ι : Type} [DecidableEq ι] {leader : ι} {capacity : ℕ} {c : ι → KiviLeaf}
  {pulled : Prop} {s t : FifoCluster ι} {a : State ι Bytes Bytes}

/-- The stores hold the caches and the channels of the leader carry the logs. Nobody asks for
data unless somebody has pulled. -/
structure Refines (leader : ι) (capacity : ℕ) (c : ι → KiviLeaf) (pulled : Prop)
    (s : FifoCluster ι) (a : State ι Bytes Bytes) : Prop where
  seat : ∀ i, (c i).SameSeat (s.leaf i)
  holds : Holds capacity s.leaf a.cache
  clean : ∀ k v, (a.cache leader).lookup k = some v → isUtf8 k = true ∧ isUtf8 v = true
  primary : a.log leader = []
  log : ∀ i, (s.channel leader i).map Message.update = (a.log i).map some
  requests : ∀ i j, i ≠ leader → ∀ m ∈ s.channel i j, j = leader ∧ pulled ∧ ∃ f ts, f ≠ leader ∧
    m = .localSyncRequest ⟨(c f).nodeId,ts⟩

omit [DecidableEq ι] in
theorem refines_start (h : Assembled leader capacity c) :
    Refines leader capacity c pulled (start c) State.empty where
  seat := fun _ => ⟨rfl,rfl,rfl⟩
  holds := KiviLeaf.holds_new h.stores
  clean := by simp [State.empty]
  primary := rfl
  log := fun _ => rfl
  requests := by simp [start]

theorem seat_reacted (h : ∀ i, (c i).SameSeat (s.leaf i)) {i : ι} {r : KiviLeaf × List Packet}
    (hr : (s.leaf i).SameSeat r.1) (j : ι) : (c j).SameSeat ((s.reacted i r).leaf j) := by
  by_cases hj : j = i
  · subst j
    have hi := h i
    simp only [reacted,Function.update_self]
    exact ⟨hr.node.trans hi.node,hr.leaderId.trans hi.leaderId,hr.leader.trans hi.leader⟩
  · simpa [reacted,Function.update_of_ne hj] using h j

theorem Refines.put (hc : 1 ≤ capacity) (hA : Assembled leader capacity c)
    (h : Refines leader capacity c pulled s a) {key value : Bytes} {now : Int64}
    (hk : isUtf8 key = true) (hv : isUtf8 value = true)
    (hstep : s.step leader (.put key value now) = some t) :
    Refines leader capacity c pulled t a ∨
      ∃ b, Step capacity leader (.put key value) a b ∧ Refines leader capacity c pulled t b := by
  obtain ⟨r,hr,rfl⟩ := react_eq_some hstep
  have hholds := h.holds.react hc hr
  obtain ⟨⟨leaf,packets,response⟩,hput,hres⟩ := except_bind_eq_ok.mp hr
  obtain rfl := Except.ok.inj hres
  rcases KiviLeaf.put_cases hput with ⟨hrefused,rfl,rfl,_⟩ | ⟨haccepted,kivi,_,rfl,rfl⟩
  · left
    have hsame : s.reacted leader (s.leaf leader,[]) = s := by
      simp [reacted,addressed]
    rwa [hsame]
  · right
    refine ⟨_,Step.put a key value,?_⟩
    have hseat : (c leader).SameSeat { s.leaf leader with kivi } :=
      ⟨(h.seat leader).node,(h.seat leader).leaderId,(h.seat leader).leader⟩
    have hwrites : (Input.put key value now).cacheAfter (s.leaf leader) (a.cache leader) =
        RecencyCache.put capacity key value (a.cache leader) := by
      simp only [Input.cacheAfter,Input.writes,if_pos haccepted,RecencyCache.putAll,
        (h.holds leader).1]
    rw [hwrites] at hholds
    refine ⟨seat_reacted h.seat ⟨rfl,rfl,rfl⟩,hholds,?_,?_,?_,?_⟩
    · intro k v hlook
      simp only [Function.update_self] at hlook
      by_cases hkk : k = key
      · subst k
        rw [RecencyCache.lookup_put_self,Option.some.injEq] at hlook
        subst v
        exact ⟨hk,hv⟩
      · exact h.clean k v (RecencyCache.lookup_put_ne hkk hlook)
    · simpa using h.primary
    · intro i
      have hnode : (s.leaf i).toPaxosNode.address = (c i).address := by rw [(h.seat i).node]
      have hadd := hA.addressed_push hseat hk hv now hnode
      simp only [reacted,Function.update_self,hadd]
      by_cases hi : i = leader
      · simp [hi,h.log]
      · simp [hi,h.log,Message.update]
    · intro i j hi
      simpa [reacted,Function.update_of_ne hi] using h.requests i j hi

theorem Refines.get (hc : 1 ≤ capacity) (h : Refines leader capacity c pulled s a) {i : ι}
    {key : Option Bytes} (hstep : s.step leader (.get i key) = some t) :
    Refines leader capacity c pulled t a ∨ ∃ k b, key = some k ∧ Step capacity leader (.get i k) a b ∧
      Refines leader capacity c pulled t b := by
  obtain ⟨r,hr,rfl⟩ := react_eq_some hstep
  have hholds := h.holds.react hc hr
  obtain ⟨⟨leaf,response⟩,hget,hres⟩ := except_bind_eq_ok.mp hr
  obtain rfl := Except.ok.inj hres
  have hchannel : ∀ leaf, (s.reacted i (leaf,[])).channel = s.channel := by
    simp [reacted,addressed]
  rcases KiviLeaf.get_cases hget with ⟨rfl,_⟩ | ⟨k,kivi,v,rfl,_,rfl⟩
  · left
    have hsame : s.reacted i (s.leaf i,[]) = s := by simp [reacted,addressed]
    rwa [hsame]
  · right
    refine ⟨k,_,rfl,Step.get a i k,seat_reacted h.seat ⟨rfl,rfl,rfl⟩,hholds,?_,h.primary,?_,?_⟩
    · intro k' v' hlook
      by_cases hi : leader = i
      · subst i
        simp only [Function.update_self,RecencyCache.lookup_get] at hlook
        exact h.clean k' v' hlook
      · simp only [Function.update_of_ne hi] at hlook
        exact h.clean k' v' hlook
    · rw [hchannel]
      exact h.log
    · rw [hchannel]
      exact h.requests

theorem Refines.pull (hA : Assembled leader capacity c)
    (h : Refines leader capacity c pulled s a) (hpulled : pulled) {i : ι}
    (hstep : s.step leader (.pull i) = some t) : Refines leader capacity c pulled t a := by
  by_cases hi : i = leader
  · simp [step,hi] at hstep
  simp only [step,if_neg hi] at hstep
  obtain ⟨r,hr,rfl⟩ := react_eq_some hstep
  obtain rfl := Except.ok.inj hr
  have hleaf : (s.reacted i (s.leaf i,((s.leaf i).pullLeaderData reachable).packets)).leaf =
      s.leaf := by simp [reacted]
  have hsent : ∀ j, addressed (s.leaf j).toPaxosNode
      ((s.leaf i).pullLeaderData reachable).packets = if j = leader then
        [.localSyncRequest ⟨(c i).nodeId,(s.leaf i).lastSyncTime⟩] else [] := by
    intro j
    have hto : (s.leaf i).currentLeader.address = (c leader).address := by
      rw [(h.seat i).leader,hA.follows i hi]
    have hat : (s.leaf j).toPaxosNode.address = (c j).address := by rw [(h.seat j).node]
    have hclean : (Message.localSyncRequest
        ⟨(s.leaf i).nodeId,(s.leaf i).lastSyncTime⟩).Clean := trivial
    have hid : (s.leaf i).nodeId = (c i).nodeId := congrArg PaxosNode.nodeId (h.seat i).node
    rw [← hid]
    exact hA.addressed_single hclean hto hat
  refine ⟨?_,?_,h.clean,h.primary,?_,?_⟩
  · rw [hleaf]
    exact h.seat
  · rw [hleaf]
    exact h.holds
  · intro j
    simpa [reacted,Function.update_of_ne (Ne.symm hi)] using h.log j
  · intro k j hk m hm
    by_cases hki : k = i
    · subst k
      simp only [reacted,Function.update_self,hsent,List.mem_append] at hm
      rcases hm with hm | hm
      · exact h.requests i j hk m hm
      · by_cases hj : j = leader
        · rw [if_pos hj,List.mem_singleton] at hm
          exact ⟨hj,hpulled,i,_,hi,hm⟩
        · simp [hj] at hm
    · simp only [reacted,Function.update_of_ne hki] at hm
      exact h.requests k j hk m hm

theorem Refines.apply (hc : 1 ≤ capacity) (h : Refines leader capacity c pulled s a) {j : ι}
    {clock : Clock} {order : HashOrder}
    (hstep : s.step leader (.deliver leader j clock order) = some t) :
    ∃ b, Step capacity leader (.apply j) a b ∧ Refines leader capacity c pulled t b := by
  cases hchan : s.channel leader j with
  | nil => simp [step,hchan] at hstep
  | cons msg rest =>
    simp only [step,hchan] at hstep
    obtain ⟨r,hr,rfl⟩ := react_eq_some hstep
    have hlog := h.log j
    rw [hchan,List.map_cons] at hlog
    obtain ⟨u,us,hus,hu,hrest⟩ : ∃ u us, a.log j = u::us ∧ msg.update = some u ∧
        rest.map Message.update = us.map some := by
      cases hus : a.log j with
      | nil => simp [hus] at hlog
      | cons u us =>
        rw [hus,List.map_cons] at hlog
        obtain ⟨hu,hrest⟩ := List.cons.inj hlog
        exact ⟨u,us,rfl,hu,hrest⟩
    have hj : j ≠ leader := by
      rintro rfl
      simp [h.primary] at hus
    obtain ⟨hseat,hnone⟩ := KiviLeaf.handle_update hu hr
    have hholds := h.holds.react hc hr
    have hafter : (Input.message msg clock order).cacheAfter (s.leaf j) (a.cache j) =
        RecencyCache.putAll capacity ((Input.message msg clock order).writes (s.leaf j))
          (a.cache j) := by
      simp only [Input.cacheAfter,(h.holds j).1]
    have hleaf : (s.taken leader j rest).leaf = s.leaf := rfl
    rw [hleaf] at hseat
    refine ⟨_,Step.apply a j u us _ hus (msg.update_writes hu (s.leaf j) clock order),
      seat_reacted h.seat hseat,?_,?_,?_,?_,?_⟩
    · rwa [← hafter]
    · intro k v hlook
      simp only [Function.update_of_ne (Ne.symm hj)] at hlook
      exact h.clean k v hlook
    · simpa [Function.update_of_ne (Ne.symm hj)] using h.primary
    · intro i
      have hchannel : ((s.taken leader j rest).reacted j r).channel leader i =
          Function.update (s.channel leader) j rest i := by
        simp [reacted,taken,Function.update_of_ne (Ne.symm hj)]
      rw [hchannel]
      by_cases hi : i = j
      · subst i
        simpa using hrest
      · simpa [Function.update_of_ne hi] using h.log i
    · intro i k hi m hm
      have hchannel : ((s.taken leader j rest).reacted j r).channel i k = s.channel i k := by
        by_cases hij : i = j
        · subst i
          simp [reacted,taken,hnone,addressed,Function.update_of_ne hi]
        · simp [reacted,taken,Function.update_of_ne hi,Function.update_of_ne hij]
      rw [hchannel] at hm
      exact h.requests i k hi m hm

theorem Refines.ship (hA : Assembled leader capacity c) (h : Refines leader capacity c pulled s a)
    {i j : ι} (hi : i ≠ leader) {clock : Clock} {order : HashOrder}
    (hstep : s.step leader (.deliver i j clock order) = some t) :
    pulled ∧ ∃ f b, Step capacity leader (.ship f) a b ∧
      Refines leader capacity c pulled t b := by
  cases hchan : s.channel i j with
  | nil => simp [step,hchan] at hstep
  | cons msg rest =>
    obtain ⟨rfl,hpulled,f,ts,hf,rfl⟩ := h.requests i j hi msg (by simp [hchan])
    simp only [step,hchan] at hstep
    obtain ⟨r,hr,rfl⟩ := react_eq_some hstep
    obtain ⟨n,hfind,hn⟩ := hA.find_requester (h.seat j) f
    let m := order.arrange (s.leaf j).kivi.getKvBatch
    let payload := LocalSyncPayload.loadFromMap clock.loadedAt m
    let response := Message.localSyncResponse ⟨(s.leaf j).nodeId,n.nodeId,n.lastSync,clock.now,payload⟩
    have hleaf : (s.taken i j rest).leaf = s.leaf := rfl
    have hreact : r = (s.leaf j,((s.leaf j).pushLeaderData reachable clock order n).packets) := by
      rw [hleaf] at hr
      simp only [KiviLeaf.react,KiviLeaf.handleMessage,hfind] at hr
      exact (Except.ok.inj hr).symm
    subst r
    have hm : ∀ k, m.lookup k = (a.cache j).lookup k := by
      intro k
      rw [← h.holds.lookup j k]
      exact AList.perm_lookup (order.perm _)
    have hpayload : ∀ k, payload.getPayload.lookup k = (a.cache j).lookup k := by
      intro k
      have hmap := LocalSyncPayload.getPayload_loadFromMap clock.loadedAt m
      rw [← hm k,← Finmap.lookup_toFinmap,hmap,Finmap.lookup_toFinmap]
    have hclean : response.Clean := LocalSyncPayload.clean_loadFromMap _ fun k v hlook =>
      h.clean k v (by rw [← hm k]; exact hlook)
    have hsent : ∀ k, addressed (s.leaf k).toPaxosNode
        ((s.leaf j).pushLeaderData reachable clock order n).packets =
          if k = f then [response] else [] := fun k =>
      hA.addressed_single hclean hn (by rw [(h.seat k).node])
    refine ⟨hpulled,f,_,Step.ship a f payload.getPayload hf hpayload,?_,?_,h.clean,?_,?_,?_⟩
    · exact seat_reacted h.seat ⟨rfl,rfl,rfl⟩
    · simpa [reacted,hleaf] using h.holds
    · simpa [Function.update_of_ne (Ne.symm hf)] using h.primary
    · intro k
      simp only [reacted,Function.update_self,hsent,taken,Function.update_of_ne (Ne.symm hi)]
      by_cases hk : k = f
      · subst k
        simp [h.log,response,Message.update]
      · simp [hk,h.log]
    · intro k l hk m' hm'
      simp only [reacted,taken,Function.update_of_ne hk] at hm'
      by_cases hki : k = i
      · subst k
        by_cases hl : l = j
        · subst l
          simp only [Function.update_self] at hm'
          exact h.requests i j hi m' (by rw [hchan]; exact List.mem_cons_of_mem _ hm')
        · simp only [Function.update_self,Function.update_of_ne hl] at hm'
          exact h.requests i l hi m' hm'
      · simp only [Function.update_of_ne hki] at hm'
        exact h.requests k l hk m' hm'

/-! ### Runs -/

namespace Event

def wellFormed : Event ι → Bool
  | .put key value _ => isUtf8 key && isUtf8 value
  | _ => true

def isGet : Event ι → Bool
  | .get _ _ => true
  | _ => false

def isPull : Event ι → Bool
  | .pull _ => true
  | _ => false

end Event

variable {history : List (Taken (FifoCluster ι) (Event ι))}

/-- A run of the leaves is a run of the caches and their logs. -/
theorem refines_of_run (hc : 1 ≤ capacity) (hA : Assembled leader capacity c)
    (hrun : Run (step leader) (start c) history s)
    (hutf : ∀ x ∈ history, x.event.wellFormed = true)
    (hpulled : ∀ x ∈ history, x.event.isPull = true → pulled) :
    ∃ as a, LogShipping.Steps capacity leader as State.empty a ∧
      Refines leader capacity c pulled s a ∧
      (∀ k v, .put k v ∈ as → ∃ x ∈ history, ∃ now, x.event = .put k v now) ∧
      (∀ i k, .get i k ∈ as → ∃ x ∈ history, x.event.isGet = true) ∧
      ∀ f, .ship f ∈ as → pulled := by
  induction hrun with
  | nil => exact ⟨[],_,.nil _,refines_start hA,by simp,by simp,by simp⟩
  | @snoc history s e t hrun hstep ih =>
    obtain ⟨as,a,has,href,hputs,hgets,hships⟩ := ih
      (fun x hx => hutf x (List.mem_cons_of_mem _ hx))
      (fun x hx => hpulled x (List.mem_cons_of_mem _ hx))
    have hputs' : ∀ k v, .put k v ∈ as → ∃ x ∈ ⟨s,e,t⟩ :: history, ∃ now,
        x.event = .put k v now := fun k v hmem =>
      List.exists_mem_cons_of_exists (hputs k v hmem)
    have hgets' : ∀ i k, .get i k ∈ as → ∃ x ∈ ⟨s,e,t⟩ :: history, x.event.isGet = true :=
      fun i k hmem => List.exists_mem_cons_of_exists (hgets i k hmem)
    have hnow := hutf ⟨s,e,t⟩ List.mem_cons_self
    cases e with
    | put key value now =>
      simp only [Event.wellFormed,Bool.and_eq_true] at hnow
      rcases href.put hc hA hnow.1 hnow.2 hstep with href | ⟨b,hab,href⟩
      · exact ⟨as,a,has,href,hputs',hgets',hships⟩
      · refine ⟨_,b,has.snoc hab,href,fun k v hmem => ?_,?_,?_⟩
        · rcases List.mem_cons.mp hmem with heq | hmem
          · simp only [LogShipping.Action.put.injEq] at heq
            obtain ⟨rfl,rfl⟩ := heq
            exact ⟨_,List.mem_cons_self,now,rfl⟩
          · exact hputs' k v hmem
        · simpa using hgets'
        · simpa using hships
    | get i key =>
      rcases href.get hc hstep with href | ⟨k,b,_,hab,href⟩
      · exact ⟨as,a,has,href,hputs',hgets',hships⟩
      · refine ⟨_,b,has.snoc hab,href,?_,fun _ _ _ => ⟨_,List.mem_cons_self,rfl⟩,?_⟩
        · simpa using hputs'
        · simpa using hships
    | pull i =>
      have hp := hpulled ⟨s,.pull i,t⟩ List.mem_cons_self rfl
      exact ⟨as,a,has,href.pull hA hp hstep,hputs',hgets',hships⟩
    | deliver i j clock order =>
      by_cases hi : i = leader
      · subst i
        obtain ⟨b,hab,href⟩ := href.apply hc hstep
        exact ⟨_,b,has.snoc hab,href,by simpa using hputs',by simpa using hgets',
          by simpa using hships⟩
      · obtain ⟨hp,f,b,hab,href⟩ := href.ship hA hi hstep
        exact ⟨_,b,has.snoc hab,href,by simpa using hputs',by simpa using hgets',fun _ _ => hp⟩

/-- With no message on its way, every store equals the leader's, when the clients put
well-formed texts and either no more keys than there is room for, or nothing is read or pulled. -/
theorem replicas_converge {ι : Type} [DecidableEq ι] {leader : ι} {capacity : ℕ}
    (hc : 1 ≤ capacity) {c : ι → KiviLeaf} (hA : Assembled leader capacity c)
    {history : List (Taken (FifoCluster ι) (Event ι))} {s : FifoCluster ι}
    (hrun : Run (step leader) (start c) history s)
    (hutf : ∀ x ∈ history, x.event.wellFormed = true)
    (hfit : (∃ ks : Finset Bytes, ks.card ≤ capacity ∧
        ∀ x ∈ history, ∀ key value now, x.event = .put key value now → key ∈ ks) ∨
      ∀ x ∈ history, x.event.isGet = false ∧ x.event.isPull = false)
    (hquiet : ∀ i j, s.channel i j = []) (i : ι) :
    (s.leaf i).kivi.getKvBatch.toFinmap = (s.leaf leader).kivi.getKvBatch.toFinmap := by
  obtain ⟨as,a,has,href,hputs,hgets,hships⟩ := refines_of_run hc hA hrun hutf
    (fun x hx hp => (⟨x,hx,hp⟩ : ∃ x ∈ history, x.event.isPull = true))
  have hlog : a.log i = [] := by
    have hmap := href.log i
    rw [hquiet,List.map_nil] at hmap
    exact List.map_eq_nil_iff.mp hmap.symm
  have hcaches : ∀ k, (a.cache i).lookup k = (a.cache leader).lookup k := by
    rcases hfit with ⟨ks,hcard,hkeys⟩ | hnone
    · have hmaps := (has.replays_maps hcard fun k v hmem => by
        obtain ⟨x,hx,now,hput⟩ := hputs k v hmem
        exact hkeys x hx k v now hput).2
      exact congrFun (hmaps.caughtUp hlog)
    · have hequal := (has.replays_caches
        (fun j k hmem => by
          obtain ⟨x,hx,hget⟩ := hgets j k hmem
          simp [(hnone x hx).1] at hget)
        (fun f hmem => by
          obtain ⟨x,hx,hpull⟩ := hships f hmem
          simp [(hnone x hx).2] at hpull)).2
      intro k
      rw [hequal.caughtUp hlog]
  apply Finmap.ext_lookup
  intro k
  rw [Finmap.lookup_toFinmap,Finmap.lookup_toFinmap,href.holds.lookup,href.holds.lookup]
  exact hcaches k

/-! ### Three nodes with room for two keys -/

def threeNodes (i : Fin 3) : KiviLeaf :=
  { ((Cluster.trio i).leaf.boot Cluster.unreachable 0).1 with kivi := .new 2 }

theorem threeNodes_assembled : Assembled firstNode 2 threeNodes where
  stores := fun _ => rfl
  ids := by
    intro i j
    revert i j
    decide +kernel
  addresses := by
    intro i j
    revert i j
    decide +kernel
  accepts := by decide +kernel
  listed := by decide +kernel
  idsOnce := by decide +kernel
  addressesOnce := by decide +kernel
  follows := by decide +kernel

/-- The followers agree with the leader after every run made of certain events. -/
def Converges (allowed : Event (Fin 3) → Bool) : Prop :=
  ∀ (capacity : ℕ) (c : Fin 3 → KiviLeaf), 1 ≤ capacity → Assembled firstNode capacity c →
    ∀ history s, Run (step firstNode) (start c) history s → (∀ x ∈ history, allowed x.event = true) →
      (∀ i j, s.channel i j = []) →
        ∀ i, (s.leaf i).kivi.getKvBatch.toFinmap = (s.leaf firstNode).kivi.getKvBatch.toFinmap

def disagrees (k : Bytes) (s : FifoCluster (Fin 3)) : Bool :=
  decide (∀ i j, (s.channel i j).isEmpty = true) &&
    decide ((s.leaf secondNode).kivi.getKvBatch.lookup k ≠ (s.leaf firstNode).kivi.getKvBatch.lookup k)

theorem not_converges {allowed : Event (Fin 3) → Bool} (es : List (Event (Fin 3))) (k : Bytes)
    (hes : es.all allowed = true)
    (h : (Transition.exec (step firstNode) (start threeNodes) es).any (disagrees k) = true) :
    ¬ Converges allowed := by
  intro hconv
  obtain ⟨history,s,hrun,hevents,hend⟩ := Run.of_exec_any es h
  simp only [disagrees,Bool.and_eq_true,decide_eq_true_eq] at hend
  have hallowed : ∀ x ∈ history, allowed x.event = true := fun x hx =>
    List.all_eq_true.mp hes x.event (Run.event_mem hevents hx)
  have hquiet : ∀ i j, s.channel i j = [] := fun i j => List.isEmpty_iff.mp (hend.1 i j)
  have hequal := hconv 2 threeNodes (by decide) threeNodes_assembled history s hrun hallowed
    hquiet secondNode
  apply hend.2
  rw [← Finmap.lookup_toFinmap,hequal,Finmap.lookup_toFinmap]

def putKey (k : UInt8) : Event (Fin 3) := .put [k] [0x76] 1

def arrives (j : Fin 3) : Event (Fin 3) := .deliver firstNode j ⟨1,1⟩ .stored

def reversed : HashOrder where
  arrange := fun m => ⟨m.entries.reverse,(List.perm_nodupKeys (List.reverse_perm _)).mpr m.nodupKeys⟩
  perm := fun m => List.reverse_perm m.entries

/-- A get at the leader, a snapshot, or a value that is not text each make replicas differ. -/
theorem not_convergence :
    ¬ Converges (fun e => e.wellFormed && !e.isPull) ∧
    ¬ Converges (fun e => e.wellFormed && !e.isGet) ∧
    ¬ Converges (fun e => !e.isGet && !e.isPull) := by
  refine ⟨?_,?_,?_⟩
  · refine not_converges [putKey 1,putKey 2,.get 0 (some [1]),putKey 3,arrives 1,arrives 1,
      arrives 1,arrives 2,arrives 2,arrives 2] [1] (by decide) (by decide +kernel)
  · refine not_converges [putKey 1,putKey 2,arrives 1,arrives 1,arrives 2,arrives 2,.pull 1,
      .deliver 1 0 ⟨1,1⟩ .stored,.deliver 0 1 ⟨1,1⟩ reversed,putKey 3,arrives 1,arrives 2] [1]
      (by decide) (by decide +kernel)
  · exact not_converges [.put [1] [0xFF] 1] [1] (by decide) (by decide +kernel)

theorem replicas_converge_threeNodes : ∃ history s, Run (step firstNode) (start threeNodes) history s ∧
    (s.leaf firstNode).kivi.getKvBatch.lookup [1] = some [0x76] ∧
    (s.leaf secondNode).kivi.getKvBatch.toFinmap = (s.leaf firstNode).kivi.getKvBatch.toFinmap := by
  let es : List (Event (Fin 3)) := [putKey 1,.pull 1,.deliver 1 0 ⟨1,1⟩ .stored,arrives 1,arrives 1,
    .get 2 (some [1]),arrives 2]
  let test (s : FifoCluster (Fin 3)) : Bool := decide (∀ i j, (s.channel i j).isEmpty = true) &&
    decide ((s.leaf firstNode).kivi.getKvBatch.lookup [1] = some [0x76])
  have hend : (Transition.exec (step firstNode) (start threeNodes) es).any test = true := by
    decide +kernel
  obtain ⟨history,s,hrun,hevents,hs⟩ := Run.of_exec_any es hend
  simp only [test,Bool.and_eq_true,decide_eq_true_eq] at hs
  have hutf : ∀ e ∈ es, e.wellFormed = true := by decide
  have hkeys : ∀ e ∈ es, ∀ key value now, e = .put key value now →
      key ∈ ({[1]} : Finset Bytes) := by simp [es,putKey,arrives]
  exact ⟨history,s,hrun,hs.2,replicas_converge (by decide) threeNodes_assembled hrun
    (fun x hx => hutf x.event (Run.event_mem hevents hx))
    (.inl ⟨{[1]},by decide,fun x hx => hkeys x.event (Run.event_mem hevents hx)⟩)
    (fun i j => List.isEmpty_iff.mp (hs.1 i j)) secondNode⟩

end FifoCluster

end Kivi
