import Kivi.Leaf.Addresses
import Kivi.Leaf.Promotions
import Kivi.Cluster.System

/-! Who can handle which message. When the nodes are launched with the addresses of the cluster,
every table holds only these, and a message is handled only by a node it was meant for. -/
namespace Kivi

open Transition (Run Taken)

/-- What an entry keeps for good: the node it was made for and the time of the last
synchronisation, which is never set. -/
def PaxosNodeDescriptor.origin (n : PaxosNodeDescriptor) : PaxosNodeSharableDescriptor × Int64 :=
  (⟨n.nodeId,n.nodeIp,n.nodePort⟩,n.lastSync)

namespace PaxosNode

@[simp] theorem detectEntry_origin (self now : Int64) (n : PaxosNodeDescriptor) :
    (detectEntry self now n).origin = n.origin := by
  unfold detectEntry
  split_ifs <;> rfl

theorem refresh_origin {msg : HeartBeatMessage} {ns ns' : List PaxosNodeDescriptor}
    (h : refresh msg ns = some ns') :
    ns'.map PaxosNodeDescriptor.origin = ns.map PaxosNodeDescriptor.origin := by
  induction ns generalizing ns' with
  | nil => simp [refresh] at h
  | cons n ns ih =>
    rw [refresh] at h
    by_cases hid : n.nodeId = msg.nodeId
    · rw [if_pos hid,Option.some.injEq] at h
      subst ns'
      rfl
    · rw [if_neg hid,Option.map_eq_some_iff] at h
      obtain ⟨ms,hms,rfl⟩ := h
      simp [ih hms]

theorem receiveHeartBeat_origin (now : Int64) (msg : HeartBeatMessage) (s : PaxosNode)
    {o : PaxosNodeSharableDescriptor × Int64}
    (h : o ∈ (s.receiveHeartBeat now msg).entries.map PaxosNodeDescriptor.origin) :
    o ∈ s.entries.map PaxosNodeDescriptor.origin ∨
      o = (⟨msg.nodeId,msg.nodeIp,msg.nodePort⟩,-1) := by
  unfold receiveHeartBeat updateLastSeen at h
  cases hglobal : refresh msg s.clusterNodes with
  | some ns =>
    left
    simpa [hglobal,entries,refresh_origin hglobal] using h
  | none =>
    cases hlocal : refresh msg s.localClusterNodes with
    | some ns =>
      left
      simpa [hglobal,hlocal,entries,refresh_origin hlocal] using h
    | none =>
      simp only [hglobal,hlocal,Option.map_none] at h
      have hperm := (addNewNode_entries now ⟨msg.nodeId,msg.nodeIp,msg.nodePort⟩ msg.clusterType
        s).map PaxosNodeDescriptor.origin
      rw [hperm.mem_iff,List.map_cons,List.mem_cons] at h
      exact h.symm

end PaxosNode

namespace KiviLeaf

open PaxosNode (detectEntry mem_sendMessage mem_sendAll mem_broadcastHeartBeat)

variable {up : Reachability} {input : Input} {s : KiviLeaf} {r : KiviLeaf × List Packet}

theorem react_tables (h : s.react up input = .ok r) :
    (∃ m clock order, input = .message (.heartBeat m) clock order ∧
      r.1.toPaxosNode = s.toPaxosNode.receiveHeartBeat clock.now m) ∨
    (∃ now promotedAt, input = .detect now promotedAt ∧ r.1.toPaxosNode = { s.toPaxosNode with
      localClusterNodes := s.localClusterNodes.map (detectEntry s.nodeId now)
      clusterNodes := s.clusterNodes.map (detectEntry s.nodeId now) }) ∨
    ((∀ m clock order, input ≠ .message (.heartBeat m) clock order) ∧
      (∀ now promotedAt, input ≠ .detect now promotedAt) ∧ r.1.toPaxosNode = s.toPaxosNode) := by
  cases input with
  | heartbeat now₁ now₂ unset =>
    obtain rfl := Except.ok.inj h
    exact .inr (.inr ⟨by simp,by simp,rfl⟩)
  | detect now promotedAt =>
    obtain rfl := Except.ok.inj h
    exact .inr (.inl ⟨now,promotedAt,rfl,detectFailures_tables up now promotedAt s⟩)
  | message msg clock order =>
    rcases handleMessage_cases h with ⟨ts,kivi,hts,rfl⟩ | ⟨_,rfl | ⟨req,requester,rfl,rfl⟩ |
      ⟨res,rfl,rfl⟩ | ⟨m,rfl,rfl⟩⟩
    · refine .inr (.inr ⟨fun m clock' order' he => ?_,by simp,rfl⟩)
      rw [(Input.message.inj he).1] at hts
      cases hts
    · cases msg with
      | heartBeat m =>
        exact .inl ⟨m,clock,order,rfl,(congrArg (·.1.toPaxosNode) (Except.ok.inj h)).symm⟩
      | _ => exact .inr (.inr ⟨by simp,by simp,rfl⟩)
    · exact .inr (.inr ⟨by simp,by simp,rfl⟩)
    · exact .inr (.inr ⟨by simp,by simp,rfl⟩)
    · exact .inl ⟨m,clock,order,rfl,rfl⟩
  | put key value now =>
    obtain ⟨⟨s',packets,response⟩,hput,hr⟩ := except_bind_eq_ok.mp h
    obtain rfl := Except.ok.inj hr
    rcases put_cases hput with ⟨_,rfl,_,_⟩ | ⟨_,kivi,_,rfl,_⟩
    · exact .inr (.inr ⟨by simp,by simp,rfl⟩)
    · exact .inr (.inr ⟨by simp,by simp,rfl⟩)
  | get key =>
    obtain ⟨⟨s',response⟩,hget,hr⟩ := except_bind_eq_ok.mp h
    obtain rfl := Except.ok.inj hr
    rcases get_cases hget with ⟨rfl,_⟩ | ⟨_,_,_,_,_,rfl⟩
    · exact .inr (.inr ⟨by simp,by simp,rfl⟩)
    · exact .inr (.inr ⟨by simp,by simp,rfl⟩)
  | boot unset =>
    obtain rfl := Except.ok.inj h
    exact .inr (.inr ⟨by simp,by simp,(boot_cases up unset s).1⟩)
  | pull =>
    obtain rfl := Except.ok.inj h
    exact .inr (.inr ⟨by simp,by simp,rfl⟩)

theorem react_origin (h : s.react up input = .ok r) {o : PaxosNodeSharableDescriptor × Int64}
    (ho : o ∈ r.1.entries.map PaxosNodeDescriptor.origin) :
    o ∈ s.entries.map PaxosNodeDescriptor.origin ∨ ∃ m clock order,
      input = .message (.heartBeat m) clock order ∧
        o = (⟨m.nodeId,m.nodeIp,m.nodePort⟩,-1) := by
  rcases react_tables h with ⟨m,clock,order,hin,hnode⟩ | ⟨now,_,_,hnode⟩ | ⟨_,_,hnode⟩
  · rw [hnode] at ho
    rcases PaxosNode.receiveHeartBeat_origin clock.now m s.toPaxosNode ho with ho | ho
    · exact .inl ho
    · exact .inr ⟨m,clock,order,hin,ho⟩
  · left
    rw [hnode] at ho
    simpa [PaxosNode.entries,Function.comp_def] using ho
  · left
    rwa [hnode] at ho

def GoesOut (s : KiviLeaf) (p : Packet) : Prop :=
  ∃ n ∈ s.entries, n.nodeId ≠ s.nodeId ∧ n.address = (p.nodeIp,p.nodePort)

/-- What a leaf sends, and to whom; a request goes to whatever was copied as the leader. -/
def Posts (s : KiviLeaf) (p : Packet) : Prop :=
  match p.msg with
  | .heartBeat m => m.nodeId = s.nodeId ∧ m.nodeIp = s.nodeIp ∧ m.nodePort = s.nodePort ∧
      s.GoesOut p
  | .localSyncRequest m => m.followerNodeId = s.nodeId
  | .localSyncResponse m => m.leaderNodeId = s.nodeId ∧ ∃ n ∈ s.entries,
      n.nodeId = m.followerNodeId ∧ n.lastSync = m.lastSyncTimestamp ∧
        n.address = (p.nodeIp,p.nodePort)
  | .localSyncPush m => m.leaderNodeId = s.nodeId ∧ s.GoesOut p
  | .localSyncSelfPromotion m => m.leaderNodeId = s.nodeId ∧ s.GoesOut p
  | _ => False

theorem goesOut_of_follower {n : PaxosNodeDescriptor} (hn : n ∈ s.followers) (msg : Message) :
    s.GoesOut ⟨n.nodeIp,n.nodePort,msg⟩ := by
  obtain ⟨hmem,htest⟩ := List.mem_filter.mp hn
  rw [Bool.and_eq_true,decide_eq_true_eq] at htest
  exact ⟨n,List.mem_append_left _ hmem,htest.1,rfl⟩

theorem posts_pull {p : Packet} (hp : p ∈ (s.pullLeaderData up).packets) : s.Posts p := by
  obtain ⟨rfl,_⟩ := mem_sendMessage hp
  exact rfl

/-- The answer to a request goes to the first entry of the node that asked. -/
theorem answer_cases {req : LocalSyncRequestMessage} {clock : Clock} {order : HashOrder}
    (h : s.handleMessage up clock order (.localSyncRequest req) = .ok r) :
    r.1 = s ∧ ∀ p ∈ r.2, ∃ n ∈ s.localClusterNodes, n.nodeId = req.followerNodeId ∧
      p = ⟨n.nodeIp,n.nodePort,.localSyncResponse ⟨s.nodeId,n.nodeId,n.lastSync,clock.now,
        .loadFromMap clock.loadedAt (order.arrange s.kivi.getKvBatch)⟩⟩ := by
  unfold handleMessage at h
  cases hfind : s.localClusterNodes.find? fun n => decide (n.nodeId = req.followerNodeId) with
  | none =>
    simp only [hfind] at h
    obtain rfl := Except.ok.inj h
    exact ⟨rfl,by simp⟩
  | some n =>
    simp only [hfind] at h
    obtain rfl := Except.ok.inj h
    obtain ⟨hn,hid⟩ := find?_key hfind
    exact ⟨rfl,fun p hp => ⟨n,hn,hid,(mem_sendMessage hp).1⟩⟩

theorem PromotesInPass.entry {now : Int64} {table : List PaxosNodeDescriptor}
    (h : s.PromotesInPass now table) {n : PaxosNodeDescriptor} (hn : n ∈ table) :
    ∃ m ∈ s.entries, m.nodeId = n.nodeId ∧ m.address = n.address := by
  obtain ⟨before,w,after,hsplit,_,_,rfl,_⟩ := h
  rcases List.mem_append.mp hn with hn | hn
  · obtain ⟨m,hm,rfl⟩ := List.mem_map.mp hn
    refine ⟨m,List.mem_append_left _ ?_,by simp,by simp⟩
    rw [hsplit]
    simp only [List.mem_append,List.mem_cons,List.not_mem_nil,or_false] at hm ⊢
    rcases hm with hm | hm
    · exact .inl hm
    · exact .inr (.inl hm)
  · refine ⟨n,List.mem_append_left _ ?_,rfl,rfl⟩
    rw [hsplit]
    simp [hn]

theorem posts_detect {now promotedAt : Int64} {p : Packet}
    (hp : p ∈ (s.detectFailures up now promotedAt).2) : s.Posts p := by
  rcases detectFailures_spec up now promotedAt s with ⟨table,hpass,hr⟩ | ⟨_,hr⟩
  · rw [hr] at hp
    obtain ⟨n,hn,rfl,_⟩ := mem_sendAll hp
    obtain ⟨hmem,htest⟩ := List.mem_filter.mp hn
    rw [Bool.and_eq_true,decide_eq_true_eq] at htest
    obtain ⟨m,hm,hid,haddr⟩ := hpass.entry hmem
    exact ⟨rfl,m,hm,by rw [hid]; exact htest.1,haddr⟩
  · rw [hr] at hp
    simp at hp

theorem posts_message {msg : Message} {clock : Clock} {order : HashOrder}
    (h : s.handleMessage up clock order msg = .ok r) {p : Packet} (hp : p ∈ r.2) :
    s.Posts p := by
  have hcases := handleMessage_cases h
  cases msg with
  | localSyncRequest req =>
    obtain ⟨n,hn,hid,rfl⟩ := (answer_cases h).2 p hp
    exact ⟨rfl,n,List.mem_append_left _ hn,rfl,rfl,rfl⟩
  | localSyncSelfPromotion res =>
    obtain rfl := Except.ok.inj h
    exact posts_pull (s:=s.followLeader res.leaderNodeId clock.now) hp
  | _ =>
    rcases hcases with ⟨ts,kivi,_,rfl⟩ | ⟨_,rfl | ⟨req,requester,hmsg,_⟩ | ⟨res,hmsg,_⟩ |
      ⟨m,_,rfl⟩⟩
    · simp at hp
    · simp at hp
    · cases hmsg
    · cases hmsg
    · simp at hp

theorem react_posts (h : s.react up input = .ok r) : ∀ p ∈ r.2, s.Posts p := by
  intro p hp
  cases input with
  | heartbeat now₁ now₂ unset =>
    obtain rfl := Except.ok.inj h
    rcases List.mem_append.mp hp with hp | hp
    · obtain ⟨n,hn,hself,rfl⟩ := mem_broadcastHeartBeat hp
      exact ⟨rfl,rfl,rfl,n,hn,hself,rfl⟩
    · obtain ⟨n,hn,hself,rfl⟩ := mem_broadcastHeartBeat hp
      exact ⟨rfl,rfl,rfl,n,hn,hself,rfl⟩
  | detect now promotedAt =>
    obtain rfl := Except.ok.inj h
    exact posts_detect hp
  | message msg clock order => exact posts_message h hp
  | put key value now =>
    obtain ⟨⟨s',packets,response⟩,hput,hr⟩ := except_bind_eq_ok.mp h
    obtain rfl := Except.ok.inj hr
    rcases put_cases hput with ⟨_,_,rfl,_⟩ | ⟨_,kivi,_,rfl,rfl⟩
    · simp at hp
    · obtain ⟨n,hn,rfl,_⟩ := mem_sendAll hp
      exact ⟨rfl,goesOut_of_follower (s:={ s with kivi }) hn _⟩
  | get key =>
    obtain ⟨⟨s',response⟩,hget,hr⟩ := except_bind_eq_ok.mp h
    obtain rfl := Except.ok.inj hr
    simp at hp
  | boot unset =>
    obtain rfl := Except.ok.inj h
    obtain ⟨hnode,_,_,_,hsent⟩ := boot_cases up unset s
    rcases hsent with hsent | hsent
    · rw [hsent] at hp
      obtain ⟨rfl,_⟩ := mem_sendMessage hp
      change (s.boot up unset).1.nodeId = s.nodeId
      rw [hnode]
    · simp [hsent] at hp
  | pull =>
    obtain rfl := Except.ok.inj h
    exact posts_pull hp

end KiviLeaf

def Launch.shared (a : Launch) : PaxosNodeSharableDescriptor := ⟨a.nodeId,a.nodeIp,a.nodePort⟩

theorem Launch.leaf_node (a : Launch) : a.leaf.toPaxosNode =
    { PaxosNode.new a.nodeId a.nodeIp a.nodePort a.isProposer with
      localClusterLeader := a.watched
      localClusterNodes := a.cluster.map (PaxosNode.newEntry a.registeredAt) } := by
  have htables := PaxosNode.registerEach_tables (a.cluster.map (a.registeredAt,·))
    (PaxosNode.new a.nodeId a.nodeIp a.nodePort a.isProposer)
  change ((PaxosNode.new a.nodeId a.nodeIp a.nodePort a.isProposer).registerClusterNodes
    a.registeredAt a.cluster).setLocalClusterLeader a.watched = _
  rw [PaxosNode.registerClusterNodes_eq,htables,List.map_map]
  rfl

/-- The nodes differ in their ids and addresses, and the lists they register hold nothing but
nodes of the cluster. -/
structure AddressBook {ι : Type} (launch : ι → Launch) : Prop where
  ids : Function.Injective fun i => (launch i).nodeId
  addresses : Function.Injective fun i => ((launch i).nodeIp,(launch i).nodePort)
  listed : ∀ i, ∀ n ∈ (launch i).cluster, ∃ k, n = (launch k).shared

/-- The message may be handled by node `i`: heartbeats tell the address of another node, data and
promotions come from another node, and an answer is for the node that asked, which gets all
there is. -/
def Message.MeantFor {ι : Type} (launch : ι → Launch) (i : ι) : Message → Prop
  | .heartBeat m => ∃ j ≠ i, (⟨m.nodeId,m.nodeIp,m.nodePort⟩ : PaxosNodeSharableDescriptor) =
      (launch j).shared
  | .localSyncRequest m => ∃ j, m.followerNodeId = (launch j).nodeId
  | .localSyncResponse m => m.followerNodeId = (launch i).nodeId ∧ m.lastSyncTimestamp = -1 ∧
      ∃ j, m.leaderNodeId = (launch j).nodeId
  | .localSyncPush m => ∃ j ≠ i, m.leaderNodeId = (launch j).nodeId
  | .localSyncSelfPromotion m => ∃ j ≠ i, m.leaderNodeId = (launch j).nodeId
  | _ => False

namespace Cluster

variable {ι : Type} [DecidableEq ι] {launch : ι → Launch} {s t : Cluster ι}
  {history : List (Taken (Cluster ι) (Event ι))}

/-- The node keeps its identity, and its tables hold nodes of the cluster only. -/
structure Charts (launch : ι → Launch) (i : ι) (s : KiviLeaf) : Prop where
  nodeId : s.nodeId = (launch i).nodeId
  nodeIp : s.nodeIp = (launch i).nodeIp
  nodePort : s.nodePort = (launch i).nodePort
  tables : ∀ o ∈ s.entries.map PaxosNodeDescriptor.origin, ∃ k, o = ((launch k).shared,-1)

structure Charted (launch : ι → Launch) (s : Cluster ι) : Prop where
  leaves : ∀ i, Charts launch i (s.leaf i)
  sent : ∀ p ∈ s.sent, ∀ i, p.nodeIp = (launch i).nodeIp → p.nodePort = (launch i).nodePort →
    p.msg.MeantFor launch i

omit [DecidableEq ι] in
theorem Charts.entry {i : ι} {a : KiviLeaf} (h : Charts launch i a) {n : PaxosNodeDescriptor}
    (hn : n ∈ a.entries) : ∃ k, n.nodeId = (launch k).nodeId ∧
      n.address = ((launch k).nodeIp,(launch k).nodePort) ∧ n.lastSync = -1 := by
  obtain ⟨k,hk⟩ := h.tables _ (List.mem_map_of_mem hn)
  simp only [PaxosNodeDescriptor.origin,Launch.shared,Prod.mk.injEq,
    PaxosNodeSharableDescriptor.mk.injEq] at hk
  exact ⟨k,hk.1.1,Prod.ext hk.1.2.1 hk.1.2.2,hk.2⟩

omit [DecidableEq ι] in
theorem charts_launch (h : AddressBook launch) (i : ι) : Charts launch i (launch i).leaf where
  nodeId := by rw [Launch.leaf_node]; rfl
  nodeIp := by rw [Launch.leaf_node]; rfl
  nodePort := by rw [Launch.leaf_node]; rfl
  tables := by
    intro o ho
    obtain ⟨e,he,rfl⟩ := List.mem_map.mp ho
    rw [Launch.leaf_node] at he
    obtain ⟨n,hn,rfl⟩ : ∃ n ∈ (launch i).cluster,
        PaxosNode.newEntry (launch i).registeredAt n = e := by
      simpa [PaxosNode.entries,PaxosNode.new] using he
    obtain ⟨k,rfl⟩ := h.listed i n hn
    exact ⟨k,rfl⟩

omit [DecidableEq ι] in
theorem Charts.meantFor (hbook : AddressBook launch) {j : ι} {a : KiviLeaf}
    (h : Charts launch j a) {p : Packet} (hp : a.Posts p) {i : ι}
    (hip : p.nodeIp = (launch i).nodeIp) (hport : p.nodePort = (launch i).nodePort) :
    p.msg.MeantFor launch i := by
  have hother : a.GoesOut p → j ≠ i := by
    rintro ⟨n,hn,hself,haddr⟩ rfl
    obtain ⟨k,hid,hk,_⟩ := h.entry hn
    have hkj : k = j := by
      apply hbook.addresses
      change ((launch k).nodeIp,(launch k).nodePort) = ((launch j).nodeIp,(launch j).nodePort)
      rw [← hk,haddr,hip,hport]
    exact hself (by rw [hid,h.nodeId,hkj])
  unfold KiviLeaf.Posts at hp
  cases hmsg : p.msg with
  | heartBeat m =>
    simp only [hmsg] at hp
    obtain ⟨hid,hmip,hmport,hgo⟩ := hp
    refine ⟨j,hother hgo,?_⟩
    rw [hid,hmip,hmport,h.nodeId,h.nodeIp,h.nodePort,Launch.shared]
  | localSyncRequest m =>
    simp only [hmsg] at hp
    exact ⟨j,hp.trans h.nodeId⟩
  | localSyncResponse m =>
    simp only [hmsg] at hp
    obtain ⟨hleader,n,hn,hid,hsync,haddr⟩ := hp
    obtain ⟨k,hk,hka,hks⟩ := h.entry hn
    have hki : k = i := by
      apply hbook.addresses
      change ((launch k).nodeIp,(launch k).nodePort) = ((launch i).nodeIp,(launch i).nodePort)
      rw [← hka,haddr,hip,hport]
    exact ⟨by rw [← hid,hk,hki],by rw [← hsync,hks],j,hleader.trans h.nodeId⟩
  | localSyncPush m =>
    simp only [hmsg] at hp
    exact ⟨j,hother hp.2,hp.1.trans h.nodeId⟩
  | localSyncSelfPromotion m =>
    simp only [hmsg] at hp
    exact ⟨j,hother hp.2,hp.1.trans h.nodeId⟩
  | _ => simp only [hmsg] at hp

omit [DecidableEq ι] in
theorem Charts.react {i : ι} {a : KiviLeaf} (h : Charts launch i a) {up : Reachability}
    {input : Input} (hheard : ∀ m clock order, input = .message (.heartBeat m) clock order →
      Message.MeantFor launch i (.heartBeat m)) {r : KiviLeaf × List Packet}
    (hr : a.react up input = .ok r) : Charts launch i r.1 := by
  obtain ⟨hid,hip,hport,_⟩ := (KiviLeaf.react_reaction hr).identity
  refine ⟨hid.trans h.nodeId,hip.trans h.nodeIp,hport.trans h.nodePort,fun o ho => ?_⟩
  rcases KiviLeaf.react_origin hr ho with ho | ⟨m,clock,order,hin,rfl⟩
  · exact h.tables o ho
  · obtain ⟨j,_,hj⟩ := hheard m clock order hin
    exact ⟨j,by rw [hj]⟩

omit [DecidableEq ι] in
/-- A packet is handled only by a node it was meant for. -/
theorem Charted.handled (h : Charted launch s) {e : Event ι} {i : ι} {up : Reachability}
    {msg : Message} {clock : Clock} {order : HashOrder}
    (hreact : s.reaction e = some (i,up,.message msg clock order)) : msg.MeantFor launch i := by
  rcases reaction_cases hreact with ⟨_,hnot⟩ | ⟨n,p,_,_,_,hp,hip,hport,hmsg⟩
  · exact absurd rfl (hnot msg clock order)
  · simp only [Input.message.injEq] at hmsg
    rw [hmsg.1]
    exact h.sent p hp i (hip.trans (h.leaves i).nodeIp) (hport.trans (h.leaves i).nodePort)

theorem Charted.step (hbook : AddressBook launch) (h : Charted launch s) {e : Event ι}
    (hs : s.step e = some t) : Charted launch t := by
  rcases step_cases hs with ⟨i,_,_,rfl⟩ | ⟨i,up,input,r,hreact,_,hr,rfl⟩
  · exact ⟨h.leaves,h.sent⟩
  constructor
  · intro j
    by_cases hj : j = i
    · subst j
      rw [reacted_self]
      refine (h.leaves i).react (fun m clock order hin => ?_) hr
      subst hin
      exact h.handled hreact
    · rw [reacted_ne hj]
      exact h.leaves j
  · intro p hp j hip hport
    rcases List.mem_append.mp hp with hp | hp
    · exact h.sent p hp j hip hport
    · exact (h.leaves i).meantFor hbook (KiviLeaf.react_posts hr p hp) hip hport

theorem charted_of_run (hbook : AddressBook launch)
    (hrun : Run step (Cluster.launch launch) history s) : Charted launch s := by
  apply hrun.invariant
  · exact ⟨charts_launch hbook,by simp [Cluster.launch]⟩
  · exact fun _ _ _ h hs => h.step hbook hs

/-- In every run, whatever is lost, repeated or reordered, every message that is handled was
meant for the node that handles it. -/
theorem handled_meantFor {ι : Type} [DecidableEq ι] {launch : ι → Launch}
    (hbook : AddressBook launch) {history : List (Taken (Cluster ι) (Event ι))} {s : Cluster ι}
    (hrun : Run step (Cluster.launch launch) history s) {x : Taken (Cluster ι) (Event ι)}
    (hx : x ∈ history) {i : ι} {up : Reachability} {msg : Message} {clock : Clock}
    {order : HashOrder} (hreact : x.pre.reaction x.event = some (i,up,.message msg clock order)) :
    msg.MeantFor launch i := by
  obtain ⟨_,before,hbefore,_⟩ := hrun.taken_step hx
  exact (charted_of_run hbook hbefore).handled hreact

theorem deliver_reaction {i : ι} {up : Reachability} {n : ℕ} {clock : Clock}
    {order : HashOrder} (h : s.step (.deliver i up n clock order) = some t) :
    ∃ p, s.sent[n]? = some p ∧ s.reaction (.deliver i up n clock order) =
      some (i,up,.message p.msg clock order) := by
  rcases step_cases h with ⟨_,hcrash,_⟩ | ⟨j,up',input,_,hreact,_⟩
  · cases hcrash
  · obtain ⟨p,hp,hi⟩ := Option.bind_eq_some_iff.mp hreact
    by_cases haddr : p.nodeIp = (s.leaf i).nodeIp ∧ p.nodePort = (s.leaf i).nodePort
    · refine ⟨p,hp,?_⟩
      simp only [reaction,hp,Option.bind_some,if_pos haddr]
    · simp [haddr] at hi

def kindAt (n : ℕ) (s : Cluster ι) : Option MessageType :=
  (s.sent[n]?).map fun p => p.msg.getMessageType

theorem delivered_of_exec {c₀ : Cluster ι} {es : List (Event ι)} {i : ι} {up : Reachability}
    {n : ℕ} {clock : Clock} {order : HashOrder} {kind : MessageType}
    (h : ((Transition.exec step c₀ es).any fun s =>
      (s.step (.deliver i up n clock order)).any fun _ => decide (s.kindAt n = some kind)) = true) :
    ∃ history s x msg, Run step c₀ history s ∧ x ∈ history ∧
      x.pre.reaction x.event = some (i,up,.message msg clock order) ∧
        msg.getMessageType = kind := by
  obtain ⟨history,s,t,hrun,hstep,hkind⟩ := Run.of_exec_last h
  obtain ⟨p,hp,hreact⟩ := deliver_reaction hstep
  refine ⟨_,t,_,p.msg,hrun,List.mem_cons_self,hreact,?_⟩
  simpa [kindAt,hp] using hkind

theorem trio_addressBook : AddressBook trio where
  ids := by
    intro i j
    revert i j
    decide
  addresses := by
    intro i j h
    exact (show Function.Injective trioPorts by
      intro i j
      revert i j
      decide) (Prod.ext_iff.mp h).2
  listed := by
    intro i n hn
    obtain ⟨k,_,rfl⟩ := List.mem_map.mp hn
    exact ⟨k,rfl⟩

/-- The push of the first node to the second. -/
theorem handled_meantFor_trio : ∃ history s, Run step (Cluster.launch trio) history s ∧
    ∃ x ∈ history, ∃ up msg clock order,
      x.pre.reaction x.event = some (secondNode,up,.message msg clock order) ∧
        msg.getMessageType = .localSyncPush ∧ msg.MeantFor trio secondNode := by
  have hend : ((Transition.exec step (Cluster.launch trio)
      [.input firstNode reachable (.put [0x6B] [0x76] 5)]).any fun s =>
        (s.step (.deliver secondNode reachable 0 ⟨6,6⟩ .stored)).any fun _ =>
          decide (s.kindAt 0 = some .localSyncPush)) = true := by
    decide +kernel
  obtain ⟨history,s,x,msg,hrun,hx,hreact,hkind⟩ := delivered_of_exec hend
  exact ⟨history,s,hrun,x,hx,reachable,msg,_,_,hreact,hkind,
    handled_meantFor trio_addressBook hrun hx hreact⟩

/-! ### Following a new leader -/

end Cluster

theorem KiviLeaf.followLeader_entry {id : Int64} {s : KiviLeaf} (h : s.Lists id) (now : Int64) :
    ∃ n ∈ s.localClusterNodes, n.nodeId = id ∧
      (s.followLeader id now).currentLeader = { n with lastSeen := now, lastSync := -1 } := by
  have key : ∀ (ns : List PaxosNodeDescriptor) (leader : PaxosNodeDescriptor),
      id ∈ ns.map PaxosNodeDescriptor.nodeId → ∃ n ∈ ns, n.nodeId = id ∧
        ns.foldl (fun leader n =>
          if n.nodeId = id then { n with lastSeen := now, lastSync := -1 } else leader) leader =
          { n with lastSeen := now, lastSync := -1 } := by
    intro ns
    induction ns using List.reverseRecOn with
    | nil => simp
    | append_singleton ns n ih =>
      intro leader hmem
      by_cases hn : n.nodeId = id
      · exact ⟨n,by simp,hn,by simp [hn]⟩
      · have hold : id ∈ ns.map PaxosNodeDescriptor.nodeId := by
          simpa [Ne.symm hn] using hmem
        obtain ⟨w,hw,hid,hlast⟩ := ih leader hold
        exact ⟨w,List.mem_append_left _ hw,hid,by simp [hn,hlast]⟩
  exact key s.localClusterNodes s.currentLeader h

/-- Every node registers every node. -/
structure FullBook {ι : Type} (launch : ι → Launch) : Prop extends AddressBook launch where
  complete : ∀ i k, (launch k).shared ∈ (launch i).cluster

namespace Cluster

variable {ι : Type} [DecidableEq ι] {launch : ι → Launch} {s t : Cluster ι}
  {history : List (Taken (Cluster ι) (Event ι))}

omit [DecidableEq ι] in
theorem lists_launch (hbook : FullBook launch) (i k : ι) :
    (launch i).leaf.Lists (launch k).nodeId := by
  change (launch k).nodeId ∈ (launch i).leaf.localClusterNodes.map PaxosNodeDescriptor.nodeId
  rw [Launch.leaf_node,List.map_map]
  exact List.mem_map.mpr ⟨_,hbook.complete i k,rfl⟩

theorem lists_step {e : Event ι} {i : ι} {id : Int64} (h : (s.leaf i).Lists id)
    (hs : s.step e = some t) : (t.leaf i).Lists id := by
  refine leaf_step (P:=fun a => a.Lists id) (fun _ _ a r hP hr => ?_) hs i h
  unfold KiviLeaf.Lists at hP ⊢
  rcases (KiviLeaf.react_reaction hr).table with hids | ⟨id,_,hids⟩
  · rwa [hids]
  · rw [hids]
    exact List.mem_append_left _ hP

theorem lists_of_run (hbook : FullBook launch) (hrun : Run step (Cluster.launch launch) history s)
    (i k : ι) : (s.leaf i).Lists (launch k).nodeId :=
  hrun.invariant (I:=fun s => (s.leaf i).Lists (launch k).nodeId) (lists_launch hbook i k)
    fun _ _ _ hs hstep => lists_step hs hstep

/-- A node that handles a promotion follows the node that sent it, whichever leader it followed
before, and asks exactly this node for its data. -/
theorem follows_promoted {ι : Type} [DecidableEq ι] {launch : ι → Launch} (hbook : FullBook launch)
    {history : List (Taken (Cluster ι) (Event ι))} {s : Cluster ι}
    (hrun : Run step (Cluster.launch launch) history s) {x : Taken (Cluster ι) (Event ι)}
    (hx : x ∈ history) {i : ι} {up : Reachability} {m : LocalSyncSelfPromotionMessage}
    {clock : Clock} {order : HashOrder} (hreact : x.pre.reaction x.event =
      some (i,up,.message (.localSyncSelfPromotion m) clock order)) :
    ∃ j ≠ i, m.leaderNodeId = (launch j).nodeId ∧
      (x.post.leaf i).currentLeaderId = (launch j).nodeId.toInt32 ∧
      (x.post.leaf i).currentLeader.nodeId = (launch j).nodeId ∧
      x.post.sent = x.pre.sent ++ if up (launch j).nodeIp (launch j).nodePort then
        [⟨(launch j).nodeIp,(launch j).nodePort,
          .localSyncRequest ⟨(launch i).nodeId,(x.pre.leaf i).lastSyncTime⟩⟩] else [] := by
  obtain ⟨hstep,before,hbefore,_⟩ := hrun.taken_step hx
  have hcharted := charted_of_run hbook.toAddressBook hbefore
  obtain ⟨j,hj,hid⟩ := hcharted.handled hreact
  rcases step_cases hstep with ⟨k,hcrash,_⟩ | ⟨k,up',input,r,hreact',_,hr,hpost⟩
  · rw [hcrash] at hreact
    cases hreact
  obtain ⟨rfl,rfl,rfl⟩ : k = i ∧ up' = up ∧ input = _ := by
    simpa using hreact'.symm.trans hreact
  obtain rfl := Except.ok.inj hr
  have hlists := lists_of_run hbook hbefore k j
  rw [← hid] at hlists
  obtain ⟨n,hn,hnid,hleader⟩ := KiviLeaf.followLeader_entry hlists clock.now
  obtain ⟨j',hj',haddr,_⟩ := (hcharted.leaves k).entry (List.mem_append_left _ hn)
  obtain rfl : j' = j := hbook.ids (hj'.symm.trans (hnid.trans hid))
  obtain ⟨hip,hport⟩ := Prod.mk.inj haddr
  have hserialize : (Message.localSyncRequest ⟨(launch k).nodeId,
      (x.pre.leaf k).lastSyncTime⟩).Clean := trivial
  obtain ⟨_,_,hdata,_⟩ := Message.fromJson_serialize .reference hserialize
  have hself : ((x.pre.leaf k).followLeader m.leaderNodeId clock.now).nodeId =
      (launch k).nodeId := (hcharted.leaves k).nodeId
  have hsync : ((x.pre.leaf k).followLeader m.leaderNodeId clock.now).lastSyncTime =
      (x.pre.leaf k).lastSyncTime := rfl
  refine ⟨j',hj,hid,?_,?_,?_⟩
  · rw [hpost,reacted_self]
    change m.leaderNodeId.toInt32 = _
    rw [hid]
  · rw [hpost,reacted_self,hleader]
    exact hnid.trans hid
  · rw [hpost,reacted_sent]
    dsimp only
    rw [KiviLeaf.pullLeaderData,hself,hsync,PaxosNode.sendMessage_of_ok hdata,hleader]
    simp only [hip,hport]

theorem trio_fullBook : FullBook trio where
  toAddressBook := trio_addressBook
  complete := by
    intro i k
    refine List.mem_map.mpr ⟨k,?_,rfl⟩
    revert k
    decide

def takeover : List (Event (Fin 3)) :=
  [.input thirdNode reachable (.heartbeat 15000 15000 0),
    .deliver secondNode reachable 1 ⟨15000,15000⟩ .stored,
    .input secondNode reachable (.detect 20000 20000)]

theorem trio_promotion : ∃ history s, Run step (Cluster.launch trio) history s ∧
    ∃ x ∈ history, ∃ up m clock order, x.pre.reaction x.event =
      some (thirdNode,up,.message (.localSyncSelfPromotion m) clock order) := by
  have hend : ((Transition.exec step (Cluster.launch trio) takeover).any fun s =>
      (s.step (.deliver thirdNode reachable 2 ⟨20001,20001⟩ .stored)).any fun _ =>
        decide (s.kindAt 2 = some .localSyncSelfPromotion)) = true := by
    decide +kernel
  obtain ⟨history,s,x,msg,hrun,hx,hreact,hkind⟩ := delivered_of_exec hend
  cases msg with
  | localSyncSelfPromotion m => exact ⟨history,s,hrun,x,hx,reachable,m,_,_,hreact⟩
  | _ => cases hkind

theorem follows_promoted_trio : ∃ history s, Run step (Cluster.launch trio) history s ∧
    ∃ x ∈ history, ∃ up m clock order, x.pre.reaction x.event =
      some (thirdNode,up,.message (.localSyncSelfPromotion m) clock order) ∧
        ∃ j ≠ thirdNode, m.leaderNodeId = (trio j).nodeId ∧
          (x.post.leaf thirdNode).currentLeader.nodeId = (trio j).nodeId := by
  obtain ⟨history,s,hrun,x,hx,up,m,clock,order,hreact⟩ := trio_promotion
  obtain ⟨j,hj,hid,_,hleader,_⟩ := follows_promoted trio_fullBook hrun hx hreact
  exact ⟨history,s,hrun,x,hx,up,m,clock,order,hreact,j,hj,hid,hleader⟩

end Cluster
end Kivi
