import Kivi.Leaf.LeaderIdentity
import Kivi.Leaf.Membership

/-! Where a node sends to. An entry keeps the address it was made with; the heartbeats that
refresh it do not move it. -/
namespace Kivi

open Transition (Run Taken)
open RestController (redirectUrl)

namespace PaxosNode

@[simp] theorem heard_address (msg : HeartBeatMessage) (n : PaxosNodeDescriptor) :
    (heard msg n).address = n.address := by
  unfold heard
  split <;> rfl

@[simp] theorem detectEntry_address (self now : Int64) (n : PaxosNodeDescriptor) :
    (detectEntry self now n).address = n.address := by
  unfold detectEntry
  split_ifs <;> rfl

theorem mem_broadcastHeartBeat {up : Reachability} {msg : HeartBeatMessage} {clusterType : Int32}
    {s : PaxosNode} {p : Packet} (h : p ∈ (s.broadcastHeartBeat up msg clusterType).packets) :
    ∃ n ∈ s.entries, n.nodeId ≠ s.nodeId ∧ p = ⟨n.nodeIp,n.nodePort,.heartBeat msg⟩ := by
  obtain ⟨n,hn,hp,_⟩ := mem_sendAll h
  obtain ⟨hmem,hself⟩ := List.mem_filter.mp hn
  refine ⟨n,?_,of_decide_eq_true hself,hp⟩
  split_ifs at hmem
  · exact List.mem_append_right _ hmem
  · exact List.mem_append_left _ hmem

end PaxosNode

namespace KiviLeaf

open PaxosNode (detectEntry heard newEntry)

variable {s t s₀ : KiviLeaf} {history : List (Taken KiviLeaf MemberEvent)}
  {initialNodes : List (Int64 × PaxosNodeSharableDescriptor)} {id : Int64}
  {events : List MemberEvent} {addr : Bytes × Int32}

/-- The address a node was registered with, or else that of its first heartbeat. -/
def announced (initialNodes : List (Int64 × PaxosNodeSharableDescriptor)) (id : Int64) :
    List MemberEvent → Option (Bytes × Int32)
  | [] => (initialNodes.find? fun n => decide (n.2.nodeId = id)).map fun n =>
      (n.2.nodeIp,n.2.nodePort)
  | .heartbeat _ msg :: events => (announced initialNodes id events).or
      (if msg.nodeId = id then some (msg.nodeIp,msg.nodePort) else none)
  | .detect _ _ _ :: events => announced initialNodes id events
  | .remove _ :: events => announced initialNodes id events

def lastHeard (id : Int64) (events : List MemberEvent) : Option (Bytes × Int32) :=
  events.findSome? fun e => match e with
    | .heartbeat _ msg => if msg.nodeId = id then some (msg.nodeIp,msg.nodePort) else none
    | _ => none

def NoRemovals (events : List MemberEvent) : Prop := ∀ e ∈ events, ∀ node, e ≠ .remove node

/-- Each entry is at the address announced first, and each announced node has an entry. -/
structure Placed (initialNodes : List (Int64 × PaxosNodeSharableDescriptor))
    (events : List MemberEvent) (s : KiviLeaf) : Prop where
  nodup : s.memberIds.Nodup
  entry : ∀ id addr, announced initialNodes id events = some addr ↔
    ∃ n ∈ s.entries, n.nodeId = id ∧ n.address = addr

theorem Placed.announced_isSome (h : Placed initialNodes events s) :
    (announced initialNodes id events).isSome = true ↔ id ∈ s.memberIds := by
  rw [Option.isSome_iff_exists,PaxosNode.memberIds,List.mem_map]
  constructor
  · rintro ⟨addr,haddr⟩
    obtain ⟨n,hn,hid,_⟩ := (h.entry id addr).mp haddr
    exact ⟨n,hn,hid⟩
  · rintro ⟨n,hn,hid⟩
    exact ⟨n.address,(h.entry id n.address).mpr ⟨n,hn,hid,rfl⟩⟩

theorem placed_registered (hlocal : s₀.localClusterNodes = []) (hglobal : s₀.clusterNodes = [])
    (hd : (initialNodes.map fun n => n.2.nodeId).Nodup) :
    Placed initialNodes [] (s₀.registered initialNodes) := by
  have hentries := registered_entries initialNodes hlocal hglobal
  refine ⟨?_,fun id addr => ?_⟩
  · rw [PaxosNode.memberIds,hentries,List.map_map]
    exact hd
  · rw [hentries,announced,Option.map_eq_some_iff]
    constructor
    · rintro ⟨n,hfind,rfl⟩
      obtain ⟨hn,hid⟩ := find?_key hfind
      exact ⟨newEntry n.1 n.2,List.mem_map_of_mem hn,hid,rfl⟩
    · rintro ⟨_,hmem,rfl,rfl⟩
      obtain ⟨n,hn,rfl⟩ := List.mem_map.mp hmem
      exact ⟨n,find?_of_nodup hd hn,rfl⟩

theorem Placed.of_map (h : Placed initialNodes events s)
    {f : PaxosNodeDescriptor → PaxosNodeDescriptor} (hentries : t.entries = s.entries.map f)
    (hid : ∀ n, (f n).nodeId = n.nodeId) (haddr : ∀ n, (f n).address = n.address)
    {events' : List MemberEvent}
    (hsame : ∀ id, announced initialNodes id events' = announced initialNodes id events) :
    Placed initialNodes events' t := by
  refine ⟨?_,fun id addr => ?_⟩
  · have hids : t.memberIds = s.memberIds := by
      simp only [PaxosNode.memberIds,hentries,List.map_map,Function.comp_def,hid]
    exact hids.symm ▸ h.nodup
  · rw [hsame,h.entry,hentries]
    simp only [List.mem_map,exists_exists_and_eq_and,hid,haddr]

theorem Placed.heartbeat (h : Placed initialNodes events s) (now : Int64) (msg : HeartBeatMessage) :
    Placed initialNodes (.heartbeat now msg :: events)
      { s with toPaxosNode := s.toPaxosNode.receiveHeartBeat now msg } := by
  by_cases hknown : msg.nodeId ∈ s.memberIds
  · have hsome := h.announced_isSome.mpr hknown
    apply h.of_map (PaxosNode.receiveHeartBeat_entries now h.nodup hknown)
      (PaxosNode.heard_nodeId msg) (PaxosNode.heard_address msg)
    intro id
    rw [announced]
    by_cases hid : msg.nodeId = id
    · subst id
      rw [Option.or_of_isSome hsome]
    · rw [if_neg hid,Option.or_none]
  · have hnone : announced initialNodes msg.nodeId events = none := by
      rw [← Option.not_isSome_iff_eq_none,h.announced_isSome]
      exact hknown
    have hentries : (s.toPaxosNode.receiveHeartBeat now msg).entries.Perm
        (newEntry now ⟨msg.nodeId,msg.nodeIp,msg.nodePort⟩ :: s.entries) := by
      rw [PaxosNode.receiveHeartBeat_unknown now hknown]
      exact PaxosNode.addNewNode_entries _ _ _ _
    have hids := hentries.map PaxosNodeDescriptor.nodeId
    refine ⟨hids.nodup_iff.mpr (List.nodup_cons.mpr ⟨hknown,h.nodup⟩),fun id addr => ?_⟩
    change _ ↔ ∃ n ∈ (s.toPaxosNode.receiveHeartBeat now msg).entries,_
    rw [announced]
    simp only [hentries.mem_iff,List.mem_cons,exists_eq_or_imp]
    by_cases hid : msg.nodeId = id
    · subst id
      have hold : ¬ ∃ n ∈ s.entries, n.nodeId = msg.nodeId ∧ n.address = addr := by
        rintro ⟨n,hn,hnid,_⟩
        exact hknown (List.mem_map.mpr ⟨n,hn,hnid⟩)
      rw [hnone,Option.none_or,if_pos rfl,or_iff_left hold,Option.some.injEq]
      exact ⟨fun haddr => ⟨rfl,haddr⟩,And.right⟩
    · rw [if_neg hid,Option.or_none,h.entry]
      exact (or_iff_right fun hnew => hid hnew.1).symm

theorem placed_of_run (hlocal : s₀.localClusterNodes = []) (hglobal : s₀.clusterNodes = [])
    (hd : (initialNodes.map fun n => n.2.nodeId).Nodup)
    (hrun : Run memberStep (s₀.registered initialNodes) history s) :
    NoRemovals (history.map Taken.event) →
      Placed initialNodes (history.map Taken.event) s := by
  apply hrun.history_invariant
    (I:=fun history s => NoRemovals (history.map Taken.event) →
      Placed initialNodes (history.map Taken.event) s)
  · exact fun _ => placed_registered hlocal hglobal hd
  · intro history s e t _ ih hstep hevents
    have h := ih fun e he => hevents e (List.mem_cons_of_mem _ he)
    cases e with
    | heartbeat now msg =>
      obtain rfl := Option.some.inj hstep
      exact h.heartbeat now msg
    | detect up now promotedAt =>
      obtain rfl := Option.some.inj hstep
      exact h.of_map (detectFailures_entries up now promotedAt s)
        (fun n => PaxosNode.detectEntry_nodeId n) (PaxosNode.detectEntry_address s.nodeId now)
        fun _ => rfl
    | remove node => exact (hevents (.remove node) List.mem_cons_self node rfl).elim

/-- Everything the node sends goes to the address announced first: pushes, heartbeats, the
answer to a request for its data, and the clients it redirects. -/
structure SendsThere (initialNodes : List (Int64 × PaxosNodeSharableDescriptor))
    (events : List MemberEvent) (s : KiviLeaf) : Prop where
  pushed : ∀ up now key value, ∀ p ∈ (s.pushToFollowers up now key value).packets,
    ∃ n ∈ s.followers, announced initialNodes n.nodeId events = some (p.nodeIp,p.nodePort)
  heartbeats : ∀ up now₁ now₂ unset, ∀ p ∈ s.iniateHeartbeat up now₁ now₂ unset,
    ∃ id, id ≠ s.nodeId ∧ announced initialNodes id events = some (p.nodeIp,p.nodePort)
  answered : ∀ up clock order req s' packets,
    s.handleMessage up clock order (.localSyncRequest req) = .ok (s',packets) →
      ∀ p ∈ packets,
        announced initialNodes req.followerNodeId events = some (p.nodeIp,p.nodePort)
  redirected : ∀ leader, s.getCurrentLeader 0 = some leader →
    announced initialNodes s.currentLeaderId.toInt64 events = some leader.address ∧
      (RestController.redirect s).location = Response.header (redirectUrl leader)

theorem Placed.sendsThere (h : Placed initialNodes events s) : SendsThere initialNodes events s where
  pushed := by
    intro up now key value p hp
    obtain ⟨n,hn,rfl,_⟩ := PaxosNode.mem_sendAll hp
    have hmem : n ∈ s.entries := List.mem_append_left _ (List.mem_of_mem_filter hn)
    exact ⟨n,hn,(h.entry n.nodeId n.address).mpr ⟨n,hmem,rfl,rfl⟩⟩
  heartbeats := by
    intro up now₁ now₂ unset p hp
    rcases List.mem_append.mp hp with hp | hp
    · obtain ⟨n,hn,hself,rfl⟩ := PaxosNode.mem_broadcastHeartBeat hp
      exact ⟨n.nodeId,hself,(h.entry _ _).mpr ⟨n,hn,rfl,rfl⟩⟩
    · obtain ⟨n,hn,hself,rfl⟩ := PaxosNode.mem_broadcastHeartBeat hp
      exact ⟨n.nodeId,hself,(h.entry _ _).mpr ⟨n,hn,rfl,rfl⟩⟩
  answered := by
    intro up clock order req s' packets hrun p hp
    cases hfind : s.localClusterNodes.find? fun n => decide (n.nodeId = req.followerNodeId) with
    | none =>
      simp only [handleMessage,hfind,except_pure,Except.ok.injEq,Prod.mk.injEq] at hrun
      rw [← hrun.2] at hp
      simp at hp
    | some n =>
      simp only [handleMessage,hfind,except_pure,Except.ok.injEq,Prod.mk.injEq] at hrun
      rw [← hrun.2] at hp
      obtain ⟨rfl,_⟩ := PaxosNode.mem_sendMessage hp
      obtain ⟨hn,hid⟩ := find?_key hfind
      have hmem : n ∈ s.entries := List.mem_append_left _ hn
      exact (h.entry _ _).mpr ⟨n,hmem,hid,rfl⟩
  redirected := by
    intro leader hleader
    have hredirect := RestController.redirect_of_lookup hleader
    simp only [getCurrentLeader,Option.map_eq_some_iff] at hleader
    obtain ⟨n,hfind,rfl⟩ := hleader
    obtain ⟨hn,hid⟩ := find?_key hfind
    have hmem : n ∈ s.entries := List.mem_append_left _ hn
    exact ⟨(h.entry _ _).mpr ⟨n,hmem,hid,rfl⟩,hredirect.1⟩

/-- The heartbeat of a listed node writes `last_seen` and `is_alive` of its entry and nothing
else. -/
def OnlyRefreshes (s : KiviLeaf) : Prop :=
  ∀ now msg, msg.nodeId ∈ s.memberIds → s.toPaxosNode.receiveHeartBeat now msg = { s.toPaxosNode with
    localClusterNodes := s.localClusterNodes.map fun n =>
      if n.nodeId = msg.nodeId then { n with lastSeen := msg.lastSeen, isAlive := true } else n
    clusterNodes := s.clusterNodes.map fun n =>
      if n.nodeId = msg.nodeId then { n with lastSeen := msg.lastSeen, isAlive := true } else n }

def moved : KiviLeaf :=
  { loneLeaf.registered [(0,⟨1,[],5000⟩),(0,⟨2,[],5001⟩)] with
    toPaxosNode := (loneLeaf.registered [(0,⟨1,[],5000⟩),(0,⟨2,[],5001⟩)]).receiveHeartBeat 5
      ⟨2,[],6001,5,2⟩ }

theorem moved_run : Run memberStep (loneLeaf.registered [(0,⟨1,[],5000⟩),(0,⟨2,[],5001⟩)])
    [⟨loneLeaf.registered [(0,⟨1,[],5000⟩),(0,⟨2,[],5001⟩)],.heartbeat 5 ⟨2,[],6001,5,2⟩,moved⟩]
    moved := Run.nil.snoc rfl

end KiviLeaf
end Kivi
