import Kivi.Cluster.System
import Kivi.Leaf.Membership

/-! The first heartbeat a node handles from a stranger decides which table the stranger is
filed in, by a field that the local broadcast leaves as it finds it. -/
namespace Kivi

open Transition (Run Taken)
open PaxosNode (broadcastHeartBeat)
open Bytes (isUtf8)

namespace PaxosNode

def msgCluster (now : Int64) (s : PaxosNode) : HeartBeatMessage :=
  ⟨s.nodeId,s.nodeIp,s.nodePort,now,1⟩

def msgLocal (now : Int64) (unset : Int32) (s : PaxosNode) : HeartBeatMessage :=
  ⟨s.nodeId,s.nodeIp,s.nodePort,now,unset⟩

end PaxosNode

namespace KiviLeaf

variable {s : KiviLeaf} {id : Int64}

def FiledLocally (id : Int64) (s : KiviLeaf) : Prop :=
  id ∈ s.localClusterNodes.map PaxosNodeDescriptor.nodeId ∧
    id ∉ s.clusterNodes.map PaxosNodeDescriptor.nodeId

/-- The id has an entry to whose address every push goes while it is alive, and by which each of
its requests for data is answered with the whole store. A message goes where a connection is made,
and only if it has a text. -/
def Served (id : Int64) (s : KiviLeaf) : Prop :=
  ∃ n ∈ s.localClusterNodes, n.nodeId = id ∧
    (∀ up now key value, n.isAlive = true → id ≠ s.nodeId → up n.nodeIp n.nodePort = true →
      isUtf8 key = true → isUtf8 value = true →
      ⟨n.nodeIp,n.nodePort,.localSyncPush ⟨s.nodeId,now,key,value⟩⟩ ∈
        (s.pushToFollowers up now key value).packets) ∧
    ∀ up clock order req, req.followerNodeId = id → up n.nodeIp n.nodePort = true →
      (∀ k v, s.kivi.getKvBatch.lookup k = some v → isUtf8 k = true ∧ isUtf8 v = true) →
      s.handleMessage up clock order (.localSyncRequest req) =
        .ok (s,[⟨n.nodeIp,n.nodePort,.localSyncResponse ⟨s.nodeId,id,n.lastSync,clock.now,
          .loadFromMap clock.loadedAt (order.arrange s.kivi.getKvBatch)⟩⟩])

theorem mem_pushToFollowers {n : PaxosNodeDescriptor} (hn : n ∈ s.followers) {up : Reachability}
    (hup : up n.nodeIp n.nodePort = true) {key value : Bytes} (hkey : isUtf8 key = true)
    (hvalue : isUtf8 value = true) (now : Int64) :
    ⟨n.nodeIp,n.nodePort,.localSyncPush ⟨s.nodeId,now,key,value⟩⟩ ∈
      (s.pushToFollowers up now key value).packets := by
  have hclean : (Message.localSyncPush ⟨s.nodeId,now,key,value⟩).Clean := ⟨hkey,hvalue⟩
  obtain ⟨_,hdata⟩ := Message.clean_iff_serialize.mp hclean
  rw [pushToFollowers,PaxosNode.sendAll_of_ok hdata]
  exact List.mem_map.mpr ⟨n,List.mem_filter.mpr ⟨hn,hup⟩,rfl⟩

theorem pushLeaderData_packets {n : PaxosNodeDescriptor} {up : Reachability}
    (hup : up n.nodeIp n.nodePort = true)
    (hutf : ∀ k v, s.kivi.getKvBatch.lookup k = some v → isUtf8 k = true ∧ isUtf8 v = true)
    (clock : Clock) (order : HashOrder) :
    (s.pushLeaderData up clock order n).packets =
      [⟨n.nodeIp,n.nodePort,.localSyncResponse ⟨s.nodeId,n.nodeId,n.lastSync,clock.now,
        .loadFromMap clock.loadedAt (order.arrange s.kivi.getKvBatch)⟩⟩] := by
  have hclean : (Message.localSyncResponse ⟨s.nodeId,n.nodeId,n.lastSync,clock.now,
      .loadFromMap clock.loadedAt (order.arrange s.kivi.getKvBatch)⟩).Clean := by
    apply LocalSyncPayload.clean_loadFromMap
    intro k v hk
    rw [AList.perm_lookup (order.perm _)] at hk
    exact hutf k v hk
  obtain ⟨_,hdata⟩ := Message.clean_iff_serialize.mp hclean
  rw [pushLeaderData,PaxosNode.sendMessage_of_ok hdata,if_pos hup]

theorem served_of_mem (h : id ∈ s.localClusterNodes.map PaxosNodeDescriptor.nodeId) :
    s.Served id := by
  cases hfind : s.localClusterNodes.find? fun n => decide (n.nodeId = id) with
  | none =>
    obtain ⟨n,hn,hid⟩ := List.mem_map.mp h
    exact absurd (decide_eq_true hid) (List.find?_eq_none.mp hfind n hn)
  | some n =>
    obtain ⟨hmem,rfl⟩ := find?_key hfind
    refine ⟨n,hmem,rfl,fun up now key value halive hself hup hkey hvalue => ?_,
      fun up clock order req hreq hup hutf => ?_⟩
    · have hfollower : n ∈ s.followers := List.mem_filter.mpr ⟨hmem,by simp [halive,hself]⟩
      exact mem_pushToFollowers hfollower hup hkey hvalue now
    · simp only [handleMessage,hreq,hfind,pushLeaderData_packets hup hutf]
      rfl

end KiviLeaf

namespace Cluster

variable {ι : Type} [DecidableEq ι] {c₀ s : Cluster ι}
  {history before later : List (Taken (Cluster ι) (Event ι))}

theorem local_of_run {x : Taken (Cluster ι) (Event ι)} {i : ι} {id : Int64}
    (hrun : Run step c₀ (later ++ x :: before) s)
    (h : id ∈ (x.post.leaf i).localClusterNodes.map PaxosNodeDescriptor.nodeId) :
    id ∈ (s.leaf i).localClusterNodes.map PaxosNodeDescriptor.nodeId := by
  induction later generalizing s with
  | nil =>
    rw [← hrun.uncons.1]
    exact h
  | cons y later ih =>
    obtain ⟨_,hstep,hrest⟩ := hrun.uncons
    refine leaf_step (P:=fun s => id ∈ s.localClusterNodes.map PaxosNodeDescriptor.nodeId)
      (fun _ _ _ _ hid hr => ?_) hstep i (ih hrest)
    rcases (KiviLeaf.react_reaction hr).table with hids | ⟨_,_,hids⟩
    · rwa [hids]
    · rw [hids]
      exact List.mem_append_left _ hid

/-- In this step the `n`-th packet was sent by `broadcast_heart_beat(msg_local, 2)`, with
`unset` for what the cluster type of `msg_local` held. -/
def SentLocally (y : Taken (Cluster ι) (Event ι)) (n : ℕ) (unset : Int32)
    (m : HeartBeatMessage) : Prop :=
  ∃ j up now₁ now₂, y.event = .input j up (.heartbeat now₁ now₂ unset) ∧
    m = (y.pre.leaf j).msgLocal now₂ unset ∧
    y.pre.sent.length+((y.pre.leaf j).broadcastHeartBeat up
      ((y.pre.leaf j).msgCluster now₁) 1).packets.length ≤ n ∧ n < y.post.sent.length

theorem SentLocally.packet {y : Taken (Cluster ι) (Event ι)} {n : ℕ} {unset : Int32}
    {m : HeartBeatMessage} (h : SentLocally y n unset m) (hstep : y.pre.step y.event = some y.post) :
    ∃ p, y.post.sent[n]? = some p ∧ p.msg = .heartBeat m := by
  obtain ⟨j,up,now₁,now₂,he,rfl,hle,hlt⟩ := h
  rw [he] at hstep
  rcases step_cases hstep with ⟨_,hcrash,_,_⟩ | ⟨i,up',input,r,hreact,_,hr,hpost⟩
  · simp at hcrash
  simp only [reaction,Option.some.injEq,Prod.mk.injEq] at hreact
  obtain ⟨rfl,rfl,rfl⟩ := hreact
  obtain rfl := Except.ok.inj hr
  let first := ((y.pre.leaf j).broadcastHeartBeat up ((y.pre.leaf j).msgCluster now₁) 1).packets
  let second := ((y.pre.leaf j).broadcastHeartBeat up ((y.pre.leaf j).msgLocal now₂ unset) 2).packets
  have hsent : y.post.sent = y.pre.sent ++ (first ++ second) := by
    rw [hpost]
    rfl
  have hget : y.post.sent[n]? = second[n-(y.pre.sent.length+first.length)]? := by
    rw [hsent,← List.append_assoc,List.getElem?_append_right (by simpa using hle)]
    simp
  have hsome : ∃ p, y.post.sent[n]? = some p := ⟨_,List.getElem?_eq_getElem hlt⟩
  obtain ⟨p,hp⟩ := hsome
  refine ⟨p,hp,?_⟩
  rw [hget] at hp
  obtain ⟨k,_,rfl,_⟩ := PaxosNode.mem_sendAll (List.mem_of_getElem? hp)
  rfl

/-- What the delivery of a heartbeat does to the receiver. -/
theorem deliver_heartbeat {pre post : Cluster ι} {i : ι} {up : Reachability} {n : ℕ}
    {clock : Clock} {order : HashOrder} {p : Packet} {m : HeartBeatMessage}
    (hstep : pre.step (.deliver i up n clock order) = some post) (hp : pre.sent[n]? = some p)
    (hm : p.msg = .heartBeat m) :
    (post.leaf i).toPaxosNode = (pre.leaf i).toPaxosNode.receiveHeartBeat clock.now m := by
  rcases step_cases hstep with ⟨_,hcrash,_,_⟩ | ⟨j,up',input,r,hreact,_,hr,rfl⟩
  · simp at hcrash
  rcases reaction_cases hreact with ⟨he,_⟩ | ⟨n',p',clock',order',he,_,_,_,hinput⟩
  · simp at he
  obtain ⟨rfl,rfl,rfl,rfl,rfl⟩ := Event.deliver.inj he
  have hinput' : input = .message (.heartBeat m) clock order := by
    simp only [reaction,hp,Option.bind_some,hm] at hreact
    split at hreact
    · simpa using hreact.symm
    · simp at hreact
  subst hinput'
  obtain rfl := Except.ok.inj hr
  rw [reacted_self]
  rfl

/-- Whenever a node handles a heartbeat that a stranger broadcast to its local cluster, the
stranger is filed locally, and from then on served, exactly when the field of `msg_local`
that is never assigned does not happen to hold one. -/
theorem filed_locally_iff {launch : ι → Launch} {pre post : Cluster ι} {i : ι}
    {up : Reachability} {n : ℕ} {clock : Clock} {order : HashOrder} {unset : Int32}
    {m : HeartBeatMessage} {y : Taken (Cluster ι) (Event ι)}
    (hrun : Run step (Cluster.launch launch)
      (later ++ ⟨pre,.deliver i up n clock order,post⟩ :: before) s)
    (hy : y ∈ before) (hsent : SentLocally y n unset m)
    (hnew : m.nodeId ∉ (pre.leaf i).memberIds) :
    ((post.leaf i).FiledLocally m.nodeId ∧ (s.leaf i).Served m.nodeId) ↔ unset ≠ 1 := by
  obtain ⟨_,hstep,hbefore⟩ := hrun.upto.uncons
  obtain ⟨p,hp,hm⟩ := hsent.packet (hbefore.taken_step hy).1
  have hget : pre.sent[n]? = some p := by
    obtain ⟨rest,hrest⟩ := sent_of_run hbefore hy
    change y.post.sent ++ rest = pre.sent at hrest
    rw [← hrest,List.getElem?_append_left (List.getElem?_eq_some_iff.mp hp).1,hp]
  have hleaf := deliver_heartbeat hstep hget hm
  have htype : m.clusterType = unset := by
    obtain ⟨_,_,_,_,_,rfl,_⟩ := hsent
    rfl
  rw [PaxosNode.receiveHeartBeat_unknown clock.now hnew,htype] at hleaf
  rw [PaxosNode.memberIds_eq,List.mem_append,not_or] at hnew
  have hlocal : m.nodeId ∈ (post.leaf i).localClusterNodes.map PaxosNodeDescriptor.nodeId ↔
      unset ≠ 1 := by
    rw [hleaf]
    by_cases hone : unset = 1
    · simpa [PaxosNode.addNewNode,hone] using hnew.1
    · simp [PaxosNode.addNewNode,hone]
  constructor
  · exact fun h => hlocal.mp h.1.1
  · intro hone
    have hmem := hlocal.mpr hone
    refine ⟨⟨hmem,?_⟩,KiviLeaf.served_of_mem (local_of_run hrun hmem)⟩
    rw [hleaf]
    simpa [PaxosNode.addNewNode,hone] using hnew.2

/-! ### A newcomer -/

def newcomer (isNew : Bool) : Launch where
  nodeId := if isNew then 10001 else 10000
  nodeIp := Bytes.ofString "127.0.0.1"
  nodePort := if isNew then 5001 else 5000
  leafRole := if isNew then promotionReadyReplica else localLeader
  isProposer := !isNew
  leaderId := 10000
  cluster := if isNew then [⟨10000,Bytes.ofString "127.0.0.1",5000⟩] else []
  registeredAt := 0
  watched := 10000
  currentLeader := ⟨0,[],0,0,0,false⟩
  lastSyncTime := 0

def greeted (unset : Int32) : Cluster Bool :=
  (Cluster.launch newcomer).reacted true ((Cluster.launch newcomer).leaf true,
    ((Cluster.launch newcomer).leaf true).iniateHeartbeat reachable 1 1 unset)

def greeting (unset : Int32) : Taken (Cluster Bool) (Event Bool) :=
  ⟨Cluster.launch newcomer,.input true reachable (.heartbeat 1 1 unset),greeted unset⟩

theorem greeting_run (unset : Int32) :
    Run step (Cluster.launch newcomer) [greeting unset] (greeted unset) :=
  Run.nil.snoc rfl

theorem greeting_sent (unset : Int32) (h : (greeted unset).sent[0]?.isSome = true) :
    SentLocally (greeting unset) 0 unset ⟨10001,Bytes.ofString "127.0.0.1",5001,1,unset⟩ := by
  obtain ⟨p,hp⟩ := Option.isSome_iff_exists.mp h
  exact ⟨true,reachable,1,1,rfl,rfl,Nat.le_refl 0,(List.getElem?_eq_some_iff.mp hp).1⟩

/-- With a one in the field that is never assigned, the newcomer is filed in the table of
the global cluster. -/
theorem greeting_misfiled : ¬ ∀ (launch : Bool → Launch) later before s pre post i up n clock
    order unset m y, Run step (Cluster.launch launch)
      (later ++ ⟨pre,.deliver i up n clock order,post⟩ :: before) s →
    y ∈ before → SentLocally y n unset m → m.nodeId ∉ (pre.leaf i).memberIds →
    (post.leaf i).FiledLocally m.nodeId ∧ (s.leaf i).Served m.nodeId := by
  intro h
  have hsome : ((greeted 1).step (.deliver false reachable 0 ⟨1,1⟩ .stored)).isSome = true := by
    decide +kernel
  obtain ⟨post,hpost⟩ := Option.isSome_iff_exists.mp hsome
  have hnew : (10001 : Int64) ∉ ((greeted 1).leaf false).memberIds := by decide +kernel
  have hrun := (greeting_run 1).snoc hpost
  have hsent := greeting_sent 1 (by decide +kernel)
  have hfiled := h newcomer [] _ _ _ _ _ _ _ _ _ _ _ _ hrun List.mem_cons_self hsent hnew
  have hnot : ((greeted 1).step (.deliver false reachable 0 ⟨1,1⟩ .stored)).any (fun t =>
      decide ((10001 : Int64) ∈ (t.leaf false).clusterNodes.map PaxosNodeDescriptor.nodeId)) =
      true := by
    decide +kernel
  rw [hpost,Option.any_some,decide_eq_true_eq] at hnot
  exact hfiled.1.2 hnot

theorem filed_locally_iff_newcomer : ∃ post,
    (greeted 2).step (.deliver false reachable 0 ⟨1,1⟩ .stored) = some post ∧
      (((post.leaf false).FiledLocally 10001 ∧ (post.leaf false).Served 10001) ↔
        (2 : Int32) ≠ 1) := by
  have hsome : ((greeted 2).step (.deliver false reachable 0 ⟨1,1⟩ .stored)).isSome = true := by
    decide +kernel
  obtain ⟨post,hpost⟩ := Option.isSome_iff_exists.mp hsome
  have hsent := greeting_sent 2 (by decide +kernel)
  have hrun : Run step (Cluster.launch newcomer)
      ([] ++ ⟨greeted 2,.deliver false reachable 0 ⟨1,1⟩ .stored,post⟩ :: [greeting 2]) post :=
    (greeting_run 2).snoc hpost
  exact ⟨post,hpost,filed_locally_iff hrun List.mem_cons_self hsent (by decide +kernel)⟩

end Cluster
end Kivi
