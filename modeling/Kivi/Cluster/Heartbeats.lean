import Kivi.Cluster.Stability
import Kivi.Cluster.FirstContact
import Kivi.Paxos.Decoding

/-! Heartbeats in the cluster: who is listed and told, and who is taken for dead when. The tables
stay those that were registered, and the stamp of an entry is that of the last heartbeat handled. -/
namespace Kivi

open Transition (Run Taken)
open PaxosNodeDescriptor (silenceLimit)

def PaxosNodeDescriptor.shared (n : PaxosNodeDescriptor) : PaxosNodeSharableDescriptor :=
  ⟨n.nodeId,n.nodeIp,n.nodePort⟩

namespace KiviLeaf

open PaxosNode (detectEntry)

variable {up : Reachability} {input : Input} {s : KiviLeaf} {r : KiviLeaf × List Packet}

structure Roster (a : Launch) (s : KiviLeaf) : Prop where
  global : s.clusterNodes = []
  members : s.localClusterNodes.map PaxosNodeDescriptor.origin = a.cluster.map (·,-1)

theorem Roster.shared {a : Launch} (h : s.Roster a) :
    s.localClusterNodes.map PaxosNodeDescriptor.shared = a.cluster := by
  have hshared := congrArg (List.map Prod.fst) h.members
  rw [List.map_map,List.map_map] at hshared
  exact hshared.trans (List.map_id _)

theorem Roster.ids {a : Launch} (h : s.Roster a) :
    s.localClusterNodes.map PaxosNodeDescriptor.nodeId =
      a.cluster.map PaxosNodeSharableDescriptor.nodeId := by
  rw [← h.shared,List.map_map]
  rfl

theorem Roster.filterMap {β : Type*} {a : Launch} (h : s.Roster a)
    (p : PaxosNodeSharableDescriptor → Bool) (f : PaxosNodeSharableDescriptor → β) :
    (s.localClusterNodes.filter fun n => p n.shared).map (fun n => f n.shared) =
      (a.cluster.filter p).map f := by
  rw [← h.shared,List.filter_map,List.map_map]
  rfl

theorem roster_launch (a : Launch) : a.leaf.Roster a where
  global := by rw [Launch.leaf_node]; rfl
  members := by
    rw [Launch.leaf_node]
    simp only [List.map_map]
    rfl

theorem Roster.receive {a : Launch} (h : s.Roster a) {m : HeartBeatMessage}
    (hm : m.nodeId ∈ a.cluster.map PaxosNodeSharableDescriptor.nodeId) (now : Int64) :
    (s.toPaxosNode.receiveHeartBeat now m).clusterNodes = [] ∧
      (s.toPaxosNode.receiveHeartBeat now m).localClusterNodes.map PaxosNodeDescriptor.origin =
        a.cluster.map (·,-1) := by
  have hglobal : PaxosNode.refresh m s.clusterNodes = none := by
    rw [h.global]
    rfl
  cases hlocal : PaxosNode.refresh m s.localClusterNodes with
  | none =>
    have hnot := PaxosNode.refresh_none hlocal
    rw [h.ids] at hnot
    exact absurd hm hnot
  | some ns =>
    simp only [PaxosNode.receiveHeartBeat,PaxosNode.updateLastSeen,hglobal,hlocal,Option.map_some]
    exact ⟨h.global,(PaxosNode.refresh_origin hlocal).trans h.members⟩

theorem Roster.react {a : Launch} (h : s.Roster a)
    (hheard : ∀ m clock order, input = .message (.heartBeat m) clock order →
      m.nodeId ∈ a.cluster.map PaxosNodeSharableDescriptor.nodeId)
    (hr : s.react up input = .ok r) : r.1.Roster a := by
  rcases react_tables hr with ⟨m,clock,order,hin,hnode⟩ | ⟨now,_,_,hnode⟩ | ⟨_,_,hnode⟩
  · obtain ⟨hglobal,hmembers⟩ := h.receive (hheard m clock order hin) clock.now
    exact ⟨by rw [hnode]; exact hglobal,by rw [hnode]; exact hmembers⟩
  · refine ⟨by rw [hnode]; simp [h.global],?_⟩
    rw [hnode]
    simpa [Function.comp_def] using h.members
  · exact ⟨by rw [hnode]; exact h.global,by rw [hnode]; exact h.members⟩

end KiviLeaf

namespace Cluster

open KiviLeaf (Roster)

variable {ι : Type} [DecidableEq ι] {launch : ι → Launch} {s : Cluster ι}
  {history : List (Taken (Cluster ι) (Event ι))}

omit [DecidableEq ι] in
theorem registered_of_heard (hbook : FullBook launch) {i : ι} {m : HeartBeatMessage}
    (h : Message.MeantFor launch i (.heartBeat m)) :
    m.nodeId ∈ (launch i).cluster.map PaxosNodeSharableDescriptor.nodeId := by
  obtain ⟨j,_,hj⟩ := h
  exact List.mem_map.mpr ⟨_,hbook.complete i j,congrArg PaxosNodeSharableDescriptor.nodeId hj.symm⟩

theorem roster_of_run (hbook : FullBook launch)
    (hrun : Run step (Cluster.launch launch) history s) (i : ι) : (s.leaf i).Roster (launch i) := by
  refine hrun.history_invariant (I:=fun _ s => (s.leaf i).Roster (launch i))
    (KiviLeaf.roster_launch _) fun history s e t hbefore h hstep => ?_
  have hcharted := charted_of_run hbook.toAddressBook hbefore
  rcases step_cases hstep with ⟨_,_,_,rfl⟩ | ⟨j,up,input,r,hreact,_,hr,rfl⟩
  · exact h
  · by_cases hij : i = j
    · subst j
      rw [reacted_self]
      refine h.react (fun m clock order hin => ?_) hr
      subst hin
      exact registered_of_heard hbook (hcharted.handled hreact)
    · rwa [reacted_ne hij]

/-- Whatever has happened, a node lists exactly what it has registered, nobody is listed
globally, and a round of heartbeats is one heartbeat to each other registered node that is
reached, whatever its cluster type holds; a node whose address has no text sends none. -/
theorem heartbeats_fanOut {ι : Type} [DecidableEq ι] {launch : ι → Launch}
    (hbook : FullBook launch) {history : List (Taken (Cluster ι) (Event ι))} {s : Cluster ι}
    (hrun : Run step (Cluster.launch launch) history s) (i : ι) :
    (s.leaf i).clusterNodes = [] ∧
      (s.leaf i).localClusterNodes.map PaxosNodeDescriptor.origin = (launch i).cluster.map (·,-1) ∧
      ∀ up now₁ now₂ unset, (s.leaf i).iniateHeartbeat up now₁ now₂ unset =
        if Bytes.isUtf8 (launch i).nodeIp then
          ((launch i).cluster.filter fun n =>
            up n.nodeIp n.nodePort && decide (n.nodeId ≠ (launch i).nodeId)).map fun n =>
              ⟨n.nodeIp,n.nodePort,.heartBeat ⟨(launch i).nodeId,(launch i).nodeIp,
                (launch i).nodePort,now₂,unset⟩⟩
        else [] := by
  have hroster := roster_of_run hbook hrun i
  have hcharts := (charted_of_run hbook.toAddressBook hrun).leaves i
  refine ⟨hroster.global,hroster.members,fun up now₁ now₂ unset => ?_⟩
  have hnobody : ((s.leaf i).broadcastHeartBeat up ((s.leaf i).msgCluster now₁) 1).packets = [] := by
    simp [PaxosNode.broadcastHeartBeat,hroster.global,PaxosNode.sendAll,Sending.none]
  have hround : (s.leaf i).iniateHeartbeat up now₁ now₂ unset =
      ((s.leaf i).broadcastHeartBeat up ((s.leaf i).msgLocal now₂ unset) 2).packets := by
    change ((s.leaf i).broadcastHeartBeat up ((s.leaf i).msgCluster now₁) 1).packets ++ _ = _
    rw [hnobody]
    rfl
  have hself : (s.leaf i).msgLocal now₂ unset =
      ⟨(launch i).nodeId,(launch i).nodeIp,(launch i).nodePort,now₂,unset⟩ := by
    rw [PaxosNode.msgLocal,hcharts.nodeId,hcharts.nodeIp,hcharts.nodePort]
  have hnodes := hroster.filterMap (fun n => up n.nodeIp n.nodePort &&
    decide (n.nodeId ≠ (launch i).nodeId)) fun n => (⟨n.nodeIp,n.nodePort,.heartBeat ⟨(launch i).nodeId,
      (launch i).nodeIp,(launch i).nodePort,now₂,unset⟩⟩ : Packet)
  rw [hround,PaxosNode.broadcastHeartBeat,if_neg (by decide),hself]
  by_cases hclean : Bytes.isUtf8 (launch i).nodeIp = true
  · obtain ⟨data,hdata⟩ := (Message.clean_iff_serialize (m:=.heartBeat ⟨(launch i).nodeId,
      (launch i).nodeIp,(launch i).nodePort,now₂,unset⟩)).mp hclean
    rw [if_pos hclean,PaxosNode.sendAll_of_ok hdata,List.filter_filter,hcharts.nodeId]
    exact hnodes
  · cases hser : (Message.heartBeat ⟨(launch i).nodeId,(launch i).nodeIp,(launch i).nodePort,now₂,
        unset⟩).serialize with
    | ok data => exact absurd (Message.clean_iff_serialize.mpr ⟨data,hser⟩) hclean
    | error e => rw [if_neg hclean,(PaxosNode.sendAll_of_error hser up _).1]

/-- The first node has crashed and the third one has marked it dead; its round still goes to
both others. -/
theorem heartbeats_fanOut_trio : ∃ history s, Run step (Cluster.launch trio) history s ∧
    s.running firstNode = false ∧
    ((s.leaf thirdNode).localClusterNodes.any fun n => !n.isAlive) = true ∧
    ((s.leaf thirdNode).iniateHeartbeat reachable 20005 20006 7).length = 2 := by
  have hend : ((Transition.exec step (Cluster.launch trio)
      [.crash firstNode,.input thirdNode unreachable (.detect 20000 20000)]).any fun s =>
        !s.running firstNode &&
          (s.leaf thirdNode).localClusterNodes.any fun n => !n.isAlive) = true := by
    decide +kernel
  obtain ⟨history,s,hrun,_,hs⟩ := Run.of_exec_any _ hend
  rw [Bool.and_eq_true,Bool.not_eq_true'] at hs
  have hround := (heartbeats_fanOut trio_fullBook hrun thirdNode).2.2 reachable 20005 20006 7
  have hclean : Bytes.isUtf8 (trio thirdNode).nodeIp = true := by decide +kernel
  have hothers : ((trio thirdNode).cluster.filter fun n => reachable n.nodeIp n.nodePort &&
      decide (n.nodeId ≠ (trio thirdNode).nodeId)).length = 2 := by decide +kernel
  refine ⟨history,s,hrun,hs.1,hs.2,?_⟩
  rw [hround,if_pos hclean,List.length_map]
  exact hothers

/-! ### Stamps -/

def heardBy (i : ι) (x : Taken (Cluster ι) (Event ι)) : Option HeartBeatMessage :=
  match x.pre.reaction x.event with
  | some (j,_,.message (.heartBeat m) _ _) => if j = i then some m else none
  | _ => none

theorem heardBy_eq_some {i : ι} {x : Taken (Cluster ι) (Event ι)} {m : HeartBeatMessage} :
    heardBy i x = some m ↔ ∃ up clock order,
      x.pre.reaction x.event = some (i,up,.message (.heartBeat m) clock order) := by
  unfold heardBy
  constructor
  · intro h
    split at h
    · rename_i j up m' clock order hreact
      by_cases hj : j = i
      · rw [if_pos hj,Option.some.injEq] at h
        subst hj h
        exact ⟨up,clock,order,hreact⟩
      · simp [hj] at h
    · cases h
  · rintro ⟨up,clock,order,hreact⟩
    simp [hreact]

/-- The stamp of the last heartbeat of node `k` that node `i` has handled, or the time it
registered the cluster at. -/
def lastHeard (launch : ι → Launch) (i k : ι) : List (Taken (Cluster ι) (Event ι)) → Int64
  | [] => (launch i).registeredAt
  | x::history =>
    match heardBy i x with
    | some m => if m.nodeId = (launch k).nodeId then m.lastSeen else lastHeard launch i k history
    | none => lastHeard launch i k history

def ListedOnce (launch : ι → Launch) : Prop :=
  ∀ i, ((launch i).cluster.map PaxosNodeSharableDescriptor.nodeId).Nodup

theorem table_step (hbook : FullBook launch) (hd : ListedOnce launch) {t : Cluster ι} {e : Event ι}
    (hrun : Run step (Cluster.launch launch) history s) (hstep : s.step e = some t) (i : ι) :
    (∃ m, heardBy i ⟨s,e,t⟩ = some m ∧ (t.leaf i).localClusterNodes =
      (s.leaf i).localClusterNodes.map (PaxosNode.heard m)) ∨
    heardBy i ⟨s,e,t⟩ = none ∧ ((∃ up now promotedAt, e = .input i up (.detect now promotedAt) ∧
        (t.leaf i).localClusterNodes =
          (s.leaf i).localClusterNodes.map (PaxosNode.detectEntry (launch i).nodeId now)) ∨
      (∀ up now promotedAt, e ≠ .input i up (.detect now promotedAt)) ∧
        (t.leaf i).localClusterNodes = (s.leaf i).localClusterNodes) := by
  have hroster := roster_of_run hbook hrun i
  have hcharted := charted_of_run hbook.toAddressBook hrun
  rcases step_cases hstep with ⟨_,rfl,_,rfl⟩ | ⟨j,up,input,r,hreact,_,hr,rfl⟩
  · exact .inr ⟨rfl,.inr ⟨by simp,rfl⟩⟩
  by_cases hij : j = i
  swap
  · refine .inr ⟨?_,.inr ⟨fun up' now promotedAt he => ?_,by rw [reacted_ne (Ne.symm hij)]⟩⟩
    · rw [Option.eq_none_iff_forall_ne_some]
      intro m hm
      obtain ⟨up',clock,order,hreact'⟩ := heardBy_eq_some.mp hm
      rw [hreact] at hreact'
      exact hij (Prod.mk.inj (Option.some.inj hreact')).1
    · rw [he] at hreact
      exact hij (Prod.mk.inj (Option.some.inj hreact)).1.symm
  subst j
  rcases KiviLeaf.react_tables hr with ⟨m,clock,order,rfl,hnode⟩ | ⟨now,promotedAt,rfl,hnode⟩ |
    ⟨hheard,hdetect,hnode⟩
  · have hknown := registered_of_heard hbook (hcharted.handled hreact)
    have hids : (s.leaf i).memberIds =
        (launch i).cluster.map PaxosNodeSharableDescriptor.nodeId := by
      rw [PaxosNode.memberIds_eq,hroster.global,hroster.ids,List.map_nil,List.append_nil]
    refine .inl ⟨m,heardBy_eq_some.mpr ⟨up,clock,order,hreact⟩,?_⟩
    rw [reacted_self,hnode,PaxosNode.receiveHeartBeat_known clock.now (hids ▸ hd i) (hids ▸ hknown)]
  · refine .inr ⟨?_,.inl ⟨up,now,promotedAt,reaction_input hreact (by simp),?_⟩⟩
    · simp [heardBy,hreact]
    · rw [reacted_self,hnode,(hcharted.leaves i).nodeId]
  · refine .inr ⟨?_,.inr ⟨fun up' now promotedAt he => ?_,by rw [reacted_self,hnode]⟩⟩
    · rw [Option.eq_none_iff_forall_ne_some]
      intro m hm
      obtain ⟨up',clock,order,hreact'⟩ := heardBy_eq_some.mp hm
      rw [hreact] at hreact'
      exact hheard m clock order (Prod.mk.inj (Prod.mk.inj (Option.some.inj hreact')).2).2
    · rw [he] at hreact
      exact hdetect now promotedAt (Prod.mk.inj (Prod.mk.inj (Option.some.inj hreact)).2).2.symm

theorem stamps_of_run (hbook : FullBook launch) (hd : ListedOnce launch)
    (hrun : Run step (Cluster.launch launch) history s) (i k : ι) :
    ∀ n ∈ (s.leaf i).localClusterNodes, n.nodeId = (launch k).nodeId →
      n.lastSeen = lastHeard launch i k history := by
  induction hrun with
  | nil =>
    intro n hn _
    change n ∈ (launch i).leaf.localClusterNodes at hn
    rw [Launch.leaf_node] at hn
    obtain ⟨m,_,rfl⟩ := List.mem_map.mp hn
    rfl
  | @snoc history s e t hrun hstep ih =>
    intro n hn hid
    rcases table_step hbook hd hrun hstep i with ⟨m,hm,htable⟩ |
      ⟨hnone,⟨up,now,promotedAt,_,htable⟩ | ⟨_,htable⟩⟩
    · rw [htable] at hn
      obtain ⟨n,hmem,rfl⟩ := List.mem_map.mp hn
      rw [PaxosNode.heard_nodeId] at hid
      simp only [lastHeard,hm]
      by_cases hsender : n.nodeId = m.nodeId
      · rw [if_pos (hsender.symm.trans hid),PaxosNode.heard,if_pos hsender]
      · rw [if_neg fun he => hsender (hid.trans he.symm),PaxosNode.heard,if_neg hsender]
        exact ih n hmem hid
    · rw [htable] at hn
      obtain ⟨n,hmem,rfl⟩ := List.mem_map.mp hn
      rw [PaxosNode.detectEntry_nodeId] at hid
      simp only [lastHeard,hnone,PaxosNode.detectEntry_lastSeen]
      exact ih n hmem hid
    · rw [htable] at hn
      simp only [lastHeard,hnone]
      exact ih n hn hid

theorem alive_step (hbook : FullBook launch) (hd : ListedOnce launch) {t : Cluster ι} {e : Event ι}
    (hrun : Run step (Cluster.launch launch) history s) (hstep : s.step e = some t) (i : ι)
    {id : Int64} (halive : ∀ n ∈ (s.leaf i).localClusterNodes, n.nodeId = id → n.isAlive = true)
    (hkept : ∀ up now promotedAt, e = .input i up (.detect now promotedAt) →
      ∀ n ∈ (s.leaf i).localClusterNodes, n.nodeId = id →
        PaxosNode.expires (s.leaf i).nodeId now n = false) :
    ∀ n ∈ (t.leaf i).localClusterNodes, n.nodeId = id → n.isAlive = true := by
  intro n hn hid
  rcases table_step hbook hd hrun hstep i with ⟨m,_,htable⟩ |
    ⟨_,⟨up,now,promotedAt,he,htable⟩ | ⟨_,htable⟩⟩
  · rw [htable] at hn
    obtain ⟨n,hmem,rfl⟩ := List.mem_map.mp hn
    rw [PaxosNode.heard_nodeId] at hid
    have hold := halive n hmem hid
    unfold PaxosNode.heard
    split
    · rfl
    · exact hold
  · rw [htable] at hn
    obtain ⟨n,hmem,rfl⟩ := List.mem_map.mp hn
    rw [PaxosNode.detectEntry_nodeId] at hid
    have hself := ((charted_of_run hbook.toAddressBook hrun).leaves i).nodeId
    have hnot := hkept up now promotedAt he n hmem hid
    have hold := halive n hmem hid
    rw [← Bool.not_eq_true,PaxosNode.expires_iff,hself] at hnot
    rw [PaxosNode.detectEntry_isAlive]
    by_cases hown : n.nodeId = (launch i).nodeId
    · exact .inl hown
    · refine .inr ⟨hold,?_⟩
      rw [← Bool.not_eq_true]
      exact fun hexp => hnot ⟨hown,hexp,hold⟩
  · rw [htable] at hn
    exact halive n hn hid

/-! ### No false alarm -/

variable {leader : ι}

theorem listedOnce_of_oneLeader (h : OneLeader launch leader) :
    ListedOnce launch := by
  intro i
  rw [h.cluster]
  exact h.listedOnce

/-- A pass marks the leader dead exactly when its last heartbeat that the node has handled is
older than the limit. -/
theorem expires_iff_late (h : OneLeader launch leader) (hbook : FullBook launch)
    (hrun : Run step (Cluster.launch launch) history s) {i : ι} (hi : i ≠ leader)
    {n : PaxosNodeDescriptor} (hn : n ∈ (s.leaf i).localClusterNodes)
    (hid : n.nodeId = (launch leader).nodeId) (halive : n.isAlive = true) (now : Int64) :
    PaxosNode.expires (s.leaf i).nodeId now n = true ↔
      now-lastHeard launch i leader history > silenceLimit := by
  have hd := listedOnce_of_oneLeader h
  have hself : n.nodeId ≠ (s.leaf i).nodeId := by
    rw [(lasting_of_run h hrun i).nodeId,hid]
    exact fun heq => hi (h.distinct heq.symm)
  rw [PaxosNode.expires_iff,PaxosNodeDescriptor.expired,stamps_of_run hbook hd hrun i leader n hn hid,
    decide_eq_true_eq]
  exact ⟨fun hexp => hexp.2.1,fun hlate => ⟨hself,hlate,halive⟩⟩

/-- At every pass of another node than the leader, the last heartbeat of the leader that the node
has handled is no older than the limit. -/
def Timely (launch : ι → Launch) (leader : ι) : List (Taken (Cluster ι) (Event ι)) → Prop
  | [] => True
  | x::history => (∀ i ≠ leader, ∀ up now promotedAt, x.event = .input i up (.detect now promotedAt) →
      ¬ now-lastHeard launch i leader history > silenceLimit) ∧ Timely launch leader history

theorem alive_of_run (h : OneLeader launch leader) (hbook : FullBook launch)
    (hrun : Run step (Cluster.launch launch) history s) (hkeeps : ∀ x ∈ history, KeepsLeader x)
    (i : ι) : ∀ n ∈ (s.leaf i).localClusterNodes, n.nodeId = (launch leader).nodeId →
      n.isAlive = true := by
  have hd := listedOnce_of_oneLeader h
  induction hrun with
  | nil =>
    intro n hn _
    change n ∈ (launch i).leaf.localClusterNodes at hn
    rw [Launch.leaf_node] at hn
    obtain ⟨m,_,rfl⟩ := List.mem_map.mp hn
    rfl
  | @snoc history s e t hrun hstep ih =>
    have hold := ih fun x hx => hkeeps x (List.mem_cons_of_mem _ hx)
    have hlast := lasting_of_run h hrun i
    refine alive_step hbook hd hrun hstep i hold fun up now promotedAt he n hn hid => ?_
    refine hkeeps _ List.mem_cons_self i up now promotedAt he n hn ?_
    rw [hid]
    exact (hlast.watched.trans (h.watched i)).symm

/-- A pass marks the leader dead for the first time exactly when, at the node that runs it, the
last heartbeat of the leader is older than the limit. So the leader is kept through a run exactly
when the heartbeats handled before every pass are in time. -/
theorem keepsLeader_iff_timely {ι : Type} [DecidableEq ι] {launch : ι → Launch} {leader : ι}
    (h : OneLeader launch leader) (hbook : FullBook launch)
    {history : List (Taken (Cluster ι) (Event ι))} {s : Cluster ι}
    (hrun : Run step (Cluster.launch launch) history s) :
    (∀ x ∈ history, KeepsLeader x) ↔ Timely launch leader history := by
  induction hrun with
  | nil => simp [Timely]
  | @snoc history s e t hrun hstep ih =>
    rw [List.forall_mem_cons,Timely]
    refine (and_congr_right' ih).trans (and_congr_left fun htimely => ?_)
    have halive := alive_of_run h hbook hrun (ih.mpr htimely)
    have hwatched : ∀ i, (s.leaf i).localClusterLeader = (launch leader).nodeId := fun i =>
      (lasting_of_run h hrun i).watched.trans (h.watched i)
    constructor
    · intro hkeeps i hi up now promotedAt he hlate
      obtain ⟨n,hn,hid⟩ := List.mem_map.mp (lists_of_run hbook hrun i leader)
      have hkept := hkeeps i up now promotedAt he n hn (hid.trans (hwatched i).symm)
      rw [(expires_iff_late h hbook hrun hi hn hid (halive i n hn hid) now).mpr hlate] at hkept
      cases hkept
    · intro hintime i up now promotedAt he n hn hid
      rw [hwatched] at hid
      rw [← Bool.not_eq_true]
      intro hexp
      have hi : i ≠ leader := by
        rintro rfl
        exact ((PaxosNode.expires_iff n).mp hexp).1 (hid.trans (lasting_of_run h hrun i).nodeId.symm)
      exact hintime i hi up now promotedAt he
        ((expires_iff_late h hbook hrun hi hn hid (halive i n hn hid) now).mp hexp)

/-- The pass after ten seconds was in time. -/
theorem keepsLeader_iff_timely_trio : ∃ history s, Run step (Cluster.launch trio) history s ∧
    history.length = 2 ∧ Timely trio firstNode history := by
  obtain ⟨history,s,hrun,hkeeps,_,hlength,_⟩ := trio_steady
  exact ⟨history,s,hrun,hlength,(keepsLeader_iff_timely trio_oneLeader trio_fullBook hrun).mp hkeeps⟩

/-! ### No missed failure -/

def readings (k : ι) (history : List (Taken (Cluster ι) (Event ι))) : List Int64 :=
  history.flatMap fun x =>
    match x.event with
    | .input j _ (.heartbeat now₁ now₂ _) => if j = k then [now₁,now₂] else []
    | _ => []

theorem readings_cons {k : ι} {r : Int64} (x : Taken (Cluster ι) (Event ι))
    (h : r ∈ readings k history) : r ∈ readings k (x :: history) := by
  rw [readings,List.flatMap_cons]
  exact List.mem_append_right _ h

theorem stamp_of_sent (hbook : FullBook launch)
    (hrun : Run step (Cluster.launch launch) history s) {p : Packet} (hp : p ∈ s.sent)
    {m : HeartBeatMessage} (hm : p.msg = .heartBeat m) {k : ι}
    (hid : m.nodeId = (launch k).nodeId) : m.lastSeen ∈ readings k history := by
  induction hrun with
  | nil => simp [Cluster.launch] at hp
  | @snoc history s e t hrun hstep ih =>
    rcases step_cases hstep with ⟨_,_,_,rfl⟩ | ⟨i,up,input,r,hreact,_,hr,rfl⟩
    · exact readings_cons _ (ih hp)
    rw [reacted_sent,List.mem_append] at hp
    rcases hp with hp | hp
    · exact readings_cons _ (ih hp)
    have hsends := (KiviLeaf.react_reaction hr).sends p hp
    rw [hm] at hsends
    obtain ⟨now₁,now₂,unset,rfl⟩ := hsends
    obtain rfl := Except.ok.inj hr
    obtain rfl := reaction_input hreact (by simp)
    have hcharts := (charted_of_run hbook.toAddressBook hrun).leaves i
    have hstamp : m.nodeId = (s.leaf i).nodeId ∧ (m.lastSeen = now₁ ∨ m.lastSeen = now₂) := by
      rcases List.mem_append.mp hp with hp | hp
      · obtain ⟨n,_,_,rfl⟩ := PaxosNode.mem_broadcastHeartBeat hp
        obtain rfl := Message.heartBeat.inj hm
        exact ⟨rfl,.inl rfl⟩
      · obtain ⟨n,_,_,rfl⟩ := PaxosNode.mem_broadcastHeartBeat hp
        obtain rfl := Message.heartBeat.inj hm
        exact ⟨rfl,.inr rfl⟩
    obtain rfl : i = k := hbook.ids (hcharts.nodeId.symm.trans (hstamp.1.symm.trans hid))
    rw [readings,List.flatMap_cons]
    exact List.mem_append_left _ (by simpa using hstamp.2)

theorem lastHeard_mem (hbook : FullBook launch)
    (hrun : Run step (Cluster.launch launch) history s) (i k : ι) :
    lastHeard launch i k history ∈ (launch i).registeredAt :: readings k history := by
  induction hrun with
  | nil => exact List.mem_cons_self
  | @snoc history s e t hrun hstep ih =>
    have hbefore : lastHeard launch i k history ∈
        (launch i).registeredAt :: readings k (⟨s,e,t⟩ :: history) := by
      rcases List.mem_cons.mp ih with hreg | hread
      · exact hreg ▸ List.mem_cons_self
      · exact List.mem_cons_of_mem _ (readings_cons _ hread)
    cases hm : heardBy i ⟨s,e,t⟩ with
    | none =>
      simp only [lastHeard,hm]
      exact hbefore
    | some m =>
      simp only [lastHeard,hm]
      by_cases hid : m.nodeId = (launch k).nodeId
      · obtain ⟨up,clock,order,hreact⟩ := heardBy_eq_some.mp hm
        obtain ⟨p,hp,hmsg⟩ := reaction_message hreact
        rw [if_pos hid]
        exact List.mem_cons_of_mem _ (readings_cons _ (stamp_of_sent hbook hrun hp hmsg hid))
      · rw [if_neg hid]
        exact hbefore

/-- A node that was registered and has run its last round of heartbeats longer ago than the limit
is dead after the pass of any other node and none of its followers then, whichever of the old
heartbeats have been delivered. -/
theorem silent_dead {ι : Type} [DecidableEq ι] {launch : ι → Launch} (hbook : FullBook launch)
    (hd : ListedOnce launch) {history : List (Taken (Cluster ι) (Event ι))} {s t : Cluster ι}
    {i k : ι} (hik : k ≠ i) {up : Reachability} {now promotedAt : Int64}
    (hrun : Run step (Cluster.launch launch)
      (⟨s,.input i up (.detect now promotedAt),t⟩ :: history) t)
    (hsilent : ∀ r ∈ (launch i).registeredAt :: readings k history, now-r > silenceLimit) :
    (t.leaf i).Lists (launch k).nodeId ∧
      (∀ n ∈ (t.leaf i).localClusterNodes, n.nodeId = (launch k).nodeId → n.isAlive = false) ∧
      ∀ n ∈ (t.leaf i).followers, n.nodeId ≠ (launch k).nodeId := by
  obtain ⟨_,hstep,hbefore⟩ := hrun.uncons
  have hdead : ∀ n ∈ (t.leaf i).localClusterNodes, n.nodeId = (launch k).nodeId →
      n.isAlive = false := by
    intro n hn hid
    rcases table_step hbook hd hbefore hstep i with ⟨m,hm,_⟩ |
      ⟨_,⟨up',now',promotedAt',he,htable⟩ | ⟨hnot,_⟩⟩
    · obtain ⟨up',clock,order,hreact⟩ := heardBy_eq_some.mp hm
      simp [reaction] at hreact
    · obtain ⟨_,_,hin⟩ := Event.input.inj he
      obtain ⟨rfl,rfl⟩ := Input.detect.inj hin
      rw [htable] at hn
      obtain ⟨n,hmem,rfl⟩ := List.mem_map.mp hn
      rw [PaxosNode.detectEntry_nodeId] at hid
      have hold := hsilent _ (lastHeard_mem hbook hbefore i k)
      rw [← stamps_of_run hbook hd hbefore i k n hmem hid] at hold
      rw [← Bool.not_eq_true,PaxosNode.detectEntry_isAlive]
      rintro (hself | ⟨_,hexp⟩)
      · exact hik (hbook.ids (hid.symm.trans hself))
      · rw [PaxosNodeDescriptor.expired,decide_eq_true hold] at hexp
        cases hexp
    · exact absurd rfl (hnot up now promotedAt)
  refine ⟨lists_of_run hbook hrun i k,hdead,fun n hn hid => ?_⟩
  obtain ⟨hmem,htest⟩ := List.mem_filter.mp hn
  rw [Bool.and_eq_true,hdead n hmem hid] at htest
  cases htest.2

/-- The first node crashes, and the second one looks after twenty seconds. -/
theorem silent_dead_trio : ∃ history s t, Run step (Cluster.launch trio)
      (⟨s,.input secondNode reachable (.detect 20000 20000),t⟩ :: history) t ∧
    s.running firstNode = false ∧
    ∀ n ∈ (t.leaf secondNode).followers, n.nodeId ≠ (trio firstNode).nodeId := by
  have hcrash : step (Cluster.launch trio) (.crash firstNode) =
      some ((Cluster.launch trio).crashed firstNode) := rfl
  have hpass : (step ((Cluster.launch trio).crashed firstNode)
      (.input secondNode reachable (.detect 20000 20000))).isSome = true := by
    decide +kernel
  obtain ⟨t,ht⟩ := Option.isSome_iff_exists.mp hpass
  have hrun := (Run.nil.snoc hcrash).snoc ht
  have hd : ListedOnce trio := fun i => trio_oneLeader.cluster i ▸ trio_oneLeader.listedOnce
  have hsilent : ∀ r ∈ (trio secondNode).registeredAt :: readings firstNode
      [⟨Cluster.launch trio,.crash firstNode,(Cluster.launch trio).crashed firstNode⟩],
      20000-r > silenceLimit := by
    intro r hr
    obtain rfl : r = 0 := List.mem_singleton.mp hr
    decide
  have hdead := silent_dead (k:=firstNode) trio_fullBook hd (by decide) hrun hsilent
  exact ⟨_,_,t,hrun,rfl,hdead.2.2⟩

end Cluster
end Kivi
