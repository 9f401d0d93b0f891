import Kivi.Leaf.Machine
import Kivi.Library.Transition
import Kivi.Paxos.Decoding

/-! The two tables of a node over a run of heartbeats, passes of the failure detector and
removals: every id is listed at most once, so that one entry is refreshed by a heartbeat and
one message goes to each follower. -/
namespace Kivi

open Transition (Run Taken)
open Bytes (isUtf8)

namespace PaxosNode

variable {msg : HeartBeatMessage} {now : Int64} {s : PaxosNode}

def entries (s : PaxosNode) : List PaxosNodeDescriptor := s.localClusterNodes ++ s.clusterNodes

def memberIds (s : PaxosNode) : List Int64 := s.entries.map PaxosNodeDescriptor.nodeId

theorem memberIds_eq (s : PaxosNode) : s.memberIds =
    s.localClusterNodes.map PaxosNodeDescriptor.nodeId ++
      s.clusterNodes.map PaxosNodeDescriptor.nodeId := List.map_append

def heard (msg : HeartBeatMessage) (n : PaxosNodeDescriptor) : PaxosNodeDescriptor :=
  if n.nodeId = msg.nodeId then { n with lastSeen := msg.lastSeen, isAlive := true } else n

@[simp] theorem heard_nodeId (msg : HeartBeatMessage) (n : PaxosNodeDescriptor) :
    (heard msg n).nodeId = n.nodeId := by
  unfold heard
  split <;> rfl

theorem map_heard_of_notMem {ns : List PaxosNodeDescriptor}
    (h : msg.nodeId ∉ ns.map PaxosNodeDescriptor.nodeId) : ns.map (heard msg) = ns := by
  have hsame : ∀ n ∈ ns, heard msg n = id n := by
    intro n hn
    have hne : n.nodeId ≠ msg.nodeId := fun he => h (he ▸ List.mem_map_of_mem hn)
    simp [heard,hne]
  rw [List.map_congr_left hsame,List.map_id]

theorem refresh_of_notMem {ns : List PaxosNodeDescriptor}
    (h : msg.nodeId ∉ ns.map PaxosNodeDescriptor.nodeId) : refresh msg ns = none := by
  induction ns with
  | nil => rfl
  | cons n ns ih =>
    rw [List.map_cons,List.mem_cons,not_or] at h
    rw [refresh,if_neg (Ne.symm h.1),ih h.2,Option.map_none]

theorem refresh_eq {ns : List PaxosNodeDescriptor}
    (hn : (ns.map PaxosNodeDescriptor.nodeId).Nodup) :
    refresh msg ns =
      if msg.nodeId ∈ ns.map PaxosNodeDescriptor.nodeId then some (ns.map (heard msg)) else none := by
  induction ns with
  | nil => rfl
  | cons n ns ih =>
    rw [List.map_cons,List.nodup_cons] at hn
    have hrest := ih hn.2
    rw [refresh]
    by_cases hid : n.nodeId = msg.nodeId
    · have hkeep := map_heard_of_notMem (hid ▸ hn.1)
      rw [if_pos hid,if_pos (by simp [hid]),List.map_cons,hkeep]
      simp [heard,hid]
    · have hmem : msg.nodeId ∈ (n::ns).map PaxosNodeDescriptor.nodeId ↔
          msg.nodeId ∈ ns.map PaxosNodeDescriptor.nodeId := by
        simp [Ne.symm hid]
      rw [if_neg hid,hrest]
      simp only [hmem]
      split_ifs with h
      · simp [heard,hid]
      · rfl

/-- A heartbeat of a known node refreshes its one entry and leaves every other one alone. -/
theorem receiveHeartBeat_known (now : Int64) (hn : s.memberIds.Nodup) (h : msg.nodeId ∈ s.memberIds) :
    s.receiveHeartBeat now msg = { s with
      localClusterNodes := s.localClusterNodes.map (heard msg)
      clusterNodes := s.clusterNodes.map (heard msg) } := by
  rw [memberIds_eq] at hn h
  obtain ⟨hlocal,hglobal,hdisjoint⟩ := List.nodup_append.mp hn
  unfold receiveHeartBeat updateLastSeen
  rw [refresh_eq hglobal,refresh_eq hlocal]
  by_cases hmem : msg.nodeId ∈ s.clusterNodes.map PaxosNodeDescriptor.nodeId
  · have hnot : msg.nodeId ∉ s.localClusterNodes.map PaxosNodeDescriptor.nodeId := fun hl =>
      hdisjoint _ hl _ hmem rfl
    simp only [if_pos hmem,map_heard_of_notMem hnot]
  · have hl := (List.mem_append.mp h).resolve_right hmem
    simp only [if_neg hmem,if_pos hl,Option.map_some,map_heard_of_notMem hmem]

theorem receiveHeartBeat_entries (now : Int64) (hn : s.memberIds.Nodup) (h : msg.nodeId ∈ s.memberIds) :
    (s.receiveHeartBeat now msg).entries = s.entries.map (heard msg) := by
  rw [receiveHeartBeat_known now hn h,entries,entries,List.map_append]

theorem receiveHeartBeat_memberIds (now : Int64) (hn : s.memberIds.Nodup)
    (h : msg.nodeId ∈ s.memberIds) :
    (s.receiveHeartBeat now msg).memberIds = s.memberIds := by
  simp only [memberIds,receiveHeartBeat_entries now hn h,List.map_map,Function.comp_def,heard_nodeId]

theorem receiveHeartBeat_unknown (now : Int64) (h : msg.nodeId ∉ s.memberIds) :
    s.receiveHeartBeat now msg =
      s.addNewNode now ⟨msg.nodeId,msg.nodeIp,msg.nodePort⟩ msg.clusterType := by
  rw [memberIds_eq,List.mem_append,not_or] at h
  obtain ⟨hlocal,hglobal⟩ := h
  simp only [receiveHeartBeat,updateLastSeen,refresh_of_notMem hlocal,refresh_of_notMem hglobal,
    Option.map_none]

def newEntry (now : Int64) (n : PaxosNodeSharableDescriptor) : PaxosNodeDescriptor :=
  ⟨n.nodeId,n.nodeIp,n.nodePort,now,-1,true⟩

theorem addNewNode_entries (now : Int64) (n : PaxosNodeSharableDescriptor) (clusterType : Int32)
    (s : PaxosNode) :
    (s.addNewNode now n clusterType).entries.Perm (newEntry now n :: s.entries) := by
  unfold entries addNewNode
  split
  · dsimp only
    rw [← List.append_assoc]
    exact List.perm_append_singleton _ _
  · dsimp only
    rw [List.append_assoc]
    exact List.perm_middle

theorem addNewNode_memberIds (now : Int64) (n : PaxosNodeSharableDescriptor)
    (clusterType : Int32) (s : PaxosNode) :
    (s.addNewNode now n clusterType).memberIds.Perm (n.nodeId :: s.memberIds) :=
  (addNewNode_entries now n clusterType s).map PaxosNodeDescriptor.nodeId

theorem registerClusterNodes_eq (now : Int64) (initialNodes : List PaxosNodeSharableDescriptor)
    (s : PaxosNode) :
    s.registerClusterNodes now initialNodes = s.registerEach (initialNodes.map (now,·)) := by
  rw [registerClusterNodes,registerEach,List.foldl_map]

theorem registerEach_tables (initialNodes : List (Int64 × PaxosNodeSharableDescriptor))
    (s : PaxosNode) : s.registerEach initialNodes = { s with
      localClusterNodes := s.localClusterNodes ++ initialNodes.map fun n => newEntry n.1 n.2 } := by
  induction initialNodes generalizing s with
  | nil => simp [registerEach]
  | cons n ns ih =>
    have hrest := ih (s.addNewNode n.1 n.2 2)
    have htwo : ¬ (2 : Int32) = 1 := by decide
    have hone : s.addNewNode n.1 n.2 2 =
        { s with localClusterNodes := s.localClusterNodes ++ [newEntry n.1 n.2] } := by
      simp only [addNewNode,if_neg htwo,newEntry]
    rw [registerEach,List.foldl_cons]
    rw [registerEach] at hrest
    rw [hrest,hone]
    simp

theorem removeNode_memberIds_sublist (node : PaxosNodeSharableDescriptor) (s : PaxosNode) :
    (s.removeNode node).memberIds.Sublist s.memberIds :=
  (List.Sublist.append_left List.filter_sublist _).map _

theorem mem_removeNode_memberIds {node : PaxosNodeSharableDescriptor} {id : Int64}
    (hne : id ≠ node.nodeId) (h : id ∈ s.memberIds) : id ∈ (s.removeNode node).memberIds := by
  obtain ⟨n,hn,rfl⟩ := List.mem_map.mp h
  apply List.mem_map_of_mem
  rcases List.mem_append.mp hn with hl | hg
  · exact List.mem_append_left _ hl
  · exact List.mem_append_right _ (List.mem_filter.mpr ⟨hg,decide_eq_true hne⟩)

end PaxosNode

inductive MemberEvent
  | heartbeat (now : Int64) (msg : HeartBeatMessage)
  | detect (up : Reachability) (now promotedAt : Int64)
  | remove (node : PaxosNodeSharableDescriptor)

namespace KiviLeaf

open PaxosNode (detectEntry sendAll heard)

variable {s t s₀ : KiviLeaf} {history : List (Taken KiviLeaf MemberEvent)}
  {initialNodes : List (Int64 × PaxosNodeSharableDescriptor)} {id : Int64}

def memberStep (s : KiviLeaf) : MemberEvent → Option KiviLeaf
  | .heartbeat now msg => some { s with toPaxosNode := s.toPaxosNode.receiveHeartBeat now msg }
  | .detect up now promotedAt => some (s.detectFailures up now promotedAt).1
  | .remove node => some { s with toPaxosNode := s.toPaxosNode.removeNode node }

def registered (initialNodes : List (Int64 × PaxosNodeSharableDescriptor)) (s : KiviLeaf) :
    KiviLeaf :=
  { s with toPaxosNode := s.toPaxosNode.registerEach initialNodes }

theorem registered_entries (initialNodes : List (Int64 × PaxosNodeSharableDescriptor))
    (hlocal : s₀.localClusterNodes = []) (hglobal : s₀.clusterNodes = []) :
    (s₀.registered initialNodes).entries =
      initialNodes.map fun n => PaxosNode.newEntry n.1 n.2 := by
  simp [registered,PaxosNode.registerEach_tables,PaxosNode.entries,hlocal,hglobal]

theorem detectFailures_tables (up : Reachability) (now promotedAt : Int64) (s : KiviLeaf) :
    (s.detectFailures up now promotedAt).1.toPaxosNode = { s.toPaxosNode with
      localClusterNodes := s.localClusterNodes.map (detectEntry s.nodeId now)
      clusterNodes := s.clusterNodes.map (detectEntry s.nodeId now) } := by
  rcases detectFailures_spec up now promotedAt s with ⟨_,_,hr⟩ | ⟨_,hr⟩
  · rw [hr]
    rfl
  · rw [hr]

theorem detectFailures_entries (up : Reachability) (now promotedAt : Int64) (s : KiviLeaf) :
    (s.detectFailures up now promotedAt).1.entries = s.entries.map (detectEntry s.nodeId now) := by
  rw [detectFailures_tables,PaxosNode.entries,PaxosNode.entries,List.map_append]

theorem detectFailures_memberIds (up : Reachability) (now promotedAt : Int64) (s : KiviLeaf) :
    (s.detectFailures up now promotedAt).1.memberIds = s.memberIds := by
  simp [PaxosNode.memberIds,detectFailures_entries,Function.comp_def]

/-- The id was registered or heard of, and not removed since. -/
def Listed (id : Int64) (initialNodes : List (Int64 × PaxosNodeSharableDescriptor)) :
    List MemberEvent → Prop
  | [] => ∃ n ∈ initialNodes, n.2.nodeId = id
  | .heartbeat _ msg :: events => msg.nodeId = id ∨ Listed id initialNodes events
  | .detect _ _ _ :: events => Listed id initialNodes events
  | .remove node :: events => node.nodeId ≠ id ∧ Listed id initialNodes events

/-- The entries a message is fanned out to: one for each alive id of the local table but the
node's own. -/
structure Targets (targets : List PaxosNodeDescriptor) (s : KiviLeaf) : Prop where
  listed : targets.Sublist s.localClusterNodes
  nodup : (targets.map PaxosNodeDescriptor.nodeId).Nodup
  ids : ∀ id, id ∈ targets.map PaxosNodeDescriptor.nodeId ↔
    id ≠ s.nodeId ∧ ∃ n ∈ s.localClusterNodes, n.nodeId = id ∧ n.isAlive = true

/-- One packet is on its way to each of the targets that accepts a connection. -/
def FansOut (up : Reachability) (msg : Message) (sent : Sending) (s : KiviLeaf) : Prop :=
  ∃ targets, s.Targets targets ∧
    sent.packets = (targets.filter fun n => up n.nodeIp n.nodePort).map
      (fun n => ⟨n.nodeIp,n.nodePort,msg⟩) ∧ sent.thrown = none

/-- Nothing is sent, and the exception comes from the targets that accept a connection. -/
def Throws (up : Reachability) (sent : Sending) (s : KiviLeaf) : Prop :=
  ∃ targets, s.Targets targets ∧ sent.packets = [] ∧
    (sent.thrown ≠ none ↔ ∃ n ∈ targets, up n.nodeIp n.nodePort = true)

theorem targets_followers (hn : (s.localClusterNodes.map PaxosNodeDescriptor.nodeId).Nodup) :
    s.Targets s.followers := by
  have hsub : s.followers.Sublist s.localClusterNodes := List.filter_sublist
  refine ⟨hsub,hn.sublist (hsub.map _),fun id => ?_⟩
  simp only [followers,List.mem_map,List.mem_filter,Bool.and_eq_true,decide_eq_true_eq]
  constructor
  · rintro ⟨n,⟨hn,hself,halive⟩,rfl⟩
    exact ⟨hself,n,hn,rfl,halive⟩
  · rintro ⟨hself,n,hn,rfl,halive⟩
    exact ⟨n,⟨hn,hself,halive⟩,rfl⟩

theorem fansOut (hn : (s.localClusterNodes.map PaxosNodeDescriptor.nodeId).Nodup) {msg : Message}
    {data : Bytes} (hdata : msg.serialize = .ok data) (up : Reachability) :
    s.FansOut up msg (sendAll up s.followers msg) := by
  rw [PaxosNode.sendAll_of_ok hdata]
  exact ⟨s.followers,targets_followers hn,rfl,rfl⟩

theorem throws (hn : (s.localClusterNodes.map PaxosNodeDescriptor.nodeId).Nodup) {msg : Message}
    {e : Json.Error} (herror : msg.serialize = .error e) (up : Reachability) :
    s.Throws up (sendAll up s.followers msg) := by
  obtain ⟨hnone,hthrown⟩ := PaxosNode.sendAll_of_error herror up s.followers
  refine ⟨s.followers,targets_followers hn,hnone,?_⟩
  rw [Ne,hthrown]
  simp

/-- What every step keeps: no id twice, and no id lost that was not removed. -/
structure Members (initialNodes : List (Int64 × PaxosNodeSharableDescriptor))
    (history : List (Taken KiviLeaf MemberEvent)) (s : KiviLeaf) : Prop where
  nodup : s.memberIds.Nodup
  listed : ∀ id, Listed id initialNodes (history.map Taken.event) → id ∈ s.memberIds

theorem Members.step {e : MemberEvent} (h : Members initialNodes history s)
    (hstep : s.memberStep e = some t) : Members initialNodes (⟨s,e,t⟩ :: history) t := by
  cases e with
  | heartbeat now msg =>
    obtain rfl := Option.some.inj hstep
    by_cases hknown : msg.nodeId ∈ s.memberIds
    · have hids := PaxosNode.receiveHeartBeat_memberIds now h.nodup hknown
      refine ⟨hids.symm ▸ h.nodup,fun id hid => ?_⟩
      change id ∈ (s.toPaxosNode.receiveHeartBeat now msg).memberIds
      rw [hids]
      rcases hid with rfl | hid
      · exact hknown
      · exact h.listed id hid
    · have hids : (s.toPaxosNode.receiveHeartBeat now msg).memberIds.Perm
          (msg.nodeId :: s.memberIds) := by
        rw [PaxosNode.receiveHeartBeat_unknown now hknown]
        exact PaxosNode.addNewNode_memberIds _ _ _ _
      refine ⟨hids.nodup_iff.mpr (List.nodup_cons.mpr ⟨hknown,h.nodup⟩),fun id hid => ?_⟩
      rw [hids.mem_iff,List.mem_cons]
      rcases hid with rfl | hid
      · exact .inl rfl
      · exact .inr (h.listed id hid)
  | detect up now promotedAt =>
    obtain rfl := Option.some.inj hstep
    have hids := detectFailures_memberIds up now promotedAt s
    exact ⟨hids.symm ▸ h.nodup,fun id hid => hids.symm ▸ h.listed id hid⟩
  | remove node =>
    obtain rfl := Option.some.inj hstep
    refine ⟨h.nodup.sublist (PaxosNode.removeNode_memberIds_sublist node s.toPaxosNode),?_⟩
    rintro id ⟨hne,hid⟩
    exact PaxosNode.mem_removeNode_memberIds hne.symm (h.listed id hid)

theorem members_of_run (hlocal : s₀.localClusterNodes = []) (hglobal : s₀.clusterNodes = [])
    (hd : (initialNodes.map fun n => n.2.nodeId).Nodup)
    (hrun : Run memberStep (s₀.registered initialNodes) history s) :
    Members initialNodes history s := by
  have hids : (s₀.registered initialNodes).memberIds = initialNodes.map fun n => n.2.nodeId := by
    rw [PaxosNode.memberIds,registered_entries initialNodes hlocal hglobal,List.map_map]
    rfl
  apply hrun.history_invariant
  · refine ⟨hids.symm ▸ hd,fun id hid => ?_⟩
    rw [hids,List.mem_map]
    exact hid
  · intro _ _ _ _ _ h hstep
    exact h.step hstep

/-- No id is listed twice, every id registered or heard of and not removed since is listed
once, the heartbeat of a listed id refreshes that entry alone, and pushes and promotions go
once to each alive follower, also from within a sweep over the table. Only a push that has no
text goes to nobody. -/
structure ListedOnce (initialNodes : List (Int64 × PaxosNodeSharableDescriptor))
    (events : List MemberEvent) (s : KiviLeaf) : Prop where
  nodup : s.memberIds.Nodup
  once : ∀ id, Listed id initialNodes events → s.memberIds.count id = 1
  refreshed : ∀ now msg, msg.nodeId ∈ s.memberIds →
    s.toPaxosNode.receiveHeartBeat now msg = { s.toPaxosNode with
      localClusterNodes := s.localClusterNodes.map (heard msg)
      clusterNodes := s.clusterNodes.map (heard msg) }
  pushed : ∀ table, table.map PaxosNodeDescriptor.nodeId =
      s.localClusterNodes.map PaxosNodeDescriptor.nodeId → ∀ up now key value,
    isUtf8 key = true → isUtf8 value = true →
    (s.withTable table).FansOut up (.localSyncPush ⟨s.nodeId,now,key,value⟩)
      (pushToFollowers up now key value (s.withTable table))
  refused : ∀ table, table.map PaxosNodeDescriptor.nodeId =
      s.localClusterNodes.map PaxosNodeDescriptor.nodeId → ∀ up now key value,
    ¬ (isUtf8 key = true ∧ isUtf8 value = true) →
    (s.withTable table).Throws up (pushToFollowers up now key value (s.withTable table))
  announced : ∀ table, table.map PaxosNodeDescriptor.nodeId =
      s.localClusterNodes.map PaxosNodeDescriptor.nodeId → ∀ up now,
    (s.withTable table).FansOut up (.localSyncSelfPromotion ⟨s.nodeId,now⟩)
      (broadcastSelfPromotion up now (s.withTable table))

theorem listedOnce_of_run (hlocal : s₀.localClusterNodes = []) (hglobal : s₀.clusterNodes = [])
    (hd : (initialNodes.map fun n => n.2.nodeId).Nodup)
    (hrun : Run memberStep (s₀.registered initialNodes) history s) :
    s.ListedOnce initialNodes (history.map Taken.event) := by
  have h := members_of_run hlocal hglobal hd hrun
  have hn : ∀ table, table.map PaxosNodeDescriptor.nodeId =
      s.localClusterNodes.map PaxosNodeDescriptor.nodeId →
      ((s.withTable table).localClusterNodes.map PaxosNodeDescriptor.nodeId).Nodup := by
    intro table htable
    rw [withTable_nodes,htable]
    have hall := h.nodup
    rw [PaxosNode.memberIds_eq] at hall
    exact (List.nodup_append.mp hall).1
  exact {
    nodup := h.nodup
    once := fun id hid => List.count_eq_one_of_mem h.nodup (h.listed id hid)
    refreshed := fun now _ hmsg => PaxosNode.receiveHeartBeat_known now h.nodup hmsg
    pushed := fun table htable up now key value hkey hvalue => by
      have hclean : (Message.localSyncPush ⟨s.nodeId,now,key,value⟩).Clean := ⟨hkey,hvalue⟩
      obtain ⟨_,hdata⟩ := Message.clean_iff_serialize.mp hclean
      exact fansOut (hn table htable) hdata up
    refused := fun table htable up now key value hnot => by
      cases hser : (Message.localSyncPush ⟨s.nodeId,now,key,value⟩).serialize with
      | ok data => exact absurd (Message.clean_of_serialize hser) hnot
      | error e => exact throws (hn table htable) hser up
    announced := fun table htable up now => by
      have hclean : (Message.localSyncSelfPromotion ⟨s.nodeId,now⟩).Clean := trivial
      obtain ⟨_,hdata⟩ := Message.clean_iff_serialize.mp hclean
      exact fansOut (hn table htable) hdata up }

def loneLeaf : KiviLeaf := .new [] 5000 1 localLeader true 1 ⟨0,[],0,0,0,false⟩ 0

/-- A node that lists itself hears of a stranger. -/
theorem listedOnce_of_run_stranger : ∃ s : KiviLeaf, s.ListedOnce [(0,⟨1,[],5000⟩)]
    [.heartbeat 5 ⟨2,[],5001,5,1⟩] :=
  have hstart : Run memberStep (loneLeaf.registered [(0,⟨1,[],5000⟩)]) [] _ := Run.nil
  ⟨_,listedOnce_of_run rfl rfl (by simp) (hstart.snoc rfl)⟩

end KiviLeaf
end Kivi
