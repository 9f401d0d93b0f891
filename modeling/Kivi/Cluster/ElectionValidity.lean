import Kivi.Cluster.Election

/-! Elections among nodes of any roles and with any leaders. Besides the steps of the cluster
there are heartbeats of arbitrary contents and calls of `try_self_promote` at any time. -/
namespace Kivi

open Transition (Run Taken)
open PaxosNode (detectEntry expires)
open RestController (acceptsPut)

inductive ElectionEvent (ι : Type)
  | cluster (e : Event ι)
  | heartbeat (i : ι) (now : Int64) (msg : HeartBeatMessage)
  | election (i : ι) (up : Reachability) (now : Int64)

namespace Cluster

variable {ι : Type} [DecidableEq ι] {launch : ι → Launch} {s t : Cluster ι}
  {e : ElectionEvent ι} {i : ι} {history : List (Taken (Cluster ι) (ElectionEvent ι))}

def electionStep (s : Cluster ι) : ElectionEvent ι → Option (Cluster ι)
  | .cluster e => s.step e
  | .heartbeat i now msg =>
    if s.running i then
      some (s.reacted i
        ({ s.leaf i with toPaxosNode := (s.leaf i).toPaxosNode.receiveHeartBeat now msg },[]))
    else none
  | .election i up now =>
    if s.running i then some (s.reacted i ((s.leaf i).trySelfPromote up now)) else none

def PromotesItself (x : Taken (Cluster ι) (ElectionEvent ι)) (i : ι) : Prop :=
  (x.pre.leaf i).leafRole ≠ localLeader ∧ (x.post.leaf i).leafRole = localLeader

/-- The local table at the moment the event has node `i` run its election: as it is, or in the
middle of a sweep that has just marked the watched leader. -/
def MomentOf (i : ι) (e : ElectionEvent ι) (s : KiviLeaf) (table : List PaxosNodeDescriptor) :
    Prop :=
  (∃ up now, e = .election i up now ∧ table = s.localClusterNodes) ∨
  ∃ up now promotedAt before w after, e = .cluster (.input i up (.detect now promotedAt)) ∧
    s.localClusterNodes = before ++ w :: after ∧ expires s.nodeId now w = true ∧
    w.nodeId = s.localClusterLeader ∧
    table = (before ++ [w]).map (detectEntry s.nodeId now) ++ after

/-- Node `i` goes on without a promotion: it keeps its leader or takes over one from the
network. -/
structure Continues (s : Cluster ι) (i : ι) (r : KiviLeaf × List Packet) : Prop where
  role : r.1.leafRole = (s.leaf i).leafRole
  view : r.1.currentLeaderId = (s.leaf i).currentLeaderId ∨
    ∃ p ∈ s.sent, ∃ m, p.msg = .localSyncSelfPromotion m ∧
      r.1.currentLeaderId = m.leaderNodeId.toInt32
  silent : ∀ p ∈ r.2, ∀ m, p.msg ≠ .localSyncSelfPromotion m

/-- Node `i` takes over, with the conditions of its election met. -/
structure Rises (s : Cluster ι) (e : ElectionEvent ι) (i : ι) (r : KiviLeaf × List Packet) :
    Prop where
  moment : ∃ table, MomentOf i e (s.leaf i) table ∧ ((s.leaf i).withTable table).Eligible
  role : r.1.leafRole = localLeader
  view : r.1.currentLeaderId = (s.leaf i).nodeId.toInt32
  sends : ∀ p ∈ r.2, ∀ m, p.msg = .localSyncSelfPromotion m → m.leaderNodeId = (s.leaf i).nodeId

omit [DecidableEq ι] in
theorem turn_of_react {e : Event ι} {up : Reachability} {input : Input}
    {r : KiviLeaf × List Packet} (hreact : s.reaction e = some (i,up,input))
    (hr : (s.leaf i).react up input = .ok r) :
    Continues s i r ∨ Rises s (.cluster e) i r := by
  have hreaction := KiviLeaf.react_reaction hr
  by_cases hpass : ∃ now promotedAt table, input = .detect now promotedAt ∧
      (s.leaf i).PromotesInPass now table
  · obtain ⟨now,promotedAt,table,rfl,hpromotes⟩ := hpass
    obtain rfl := reaction_input hreact (by simp)
    obtain rfl := Except.ok.inj hr
    have hafter : ((s.leaf i).detectFailures up now promotedAt).1.leafRole = localLeader ∧
        ((s.leaf i).detectFailures up now promotedAt).1.currentLeaderId =
          (s.leaf i).nodeId.toInt32 := by
      rcases KiviLeaf.detectFailures_spec up now promotedAt (s.leaf i) with ⟨_,_,hd⟩ | ⟨hnone,_⟩
      · rw [hd]
        exact ⟨rfl,rfl⟩
      · exact absurd hpromotes (hnone table)
    refine .inr ⟨⟨table,?_⟩,hafter.1,hafter.2,fun p hp m hm => ?_⟩
    · obtain ⟨before,w,after,hsplit,hexp,hw,htable,he⟩ := hpromotes
      exact ⟨.inr ⟨up,now,promotedAt,before,w,after,rfl,hsplit,hexp,hw,htable⟩,he⟩
    · have hsends := hreaction.sends p hp
      rw [hm] at hsends
      exact hsends.1
  · left
    refine ⟨?_,?_,fun p hp m hm => ?_⟩
    · rcases hreaction.election with ⟨hrole,_⟩ | ⟨now,promotedAt,table,hin,hp,_⟩ | ⟨_,_,_,_,hrole,_⟩
      · exact hrole
      · exact absurd ⟨now,promotedAt,table,hin,hp⟩ hpass
      · exact hrole
    · rcases hreaction.election with ⟨_,hview⟩ | ⟨now,promotedAt,table,hin,hp,_⟩ |
        ⟨m,clock,order,rfl,_,hview⟩
      · exact .inl hview
      · exact absurd ⟨now,promotedAt,table,hin,hp⟩ hpass
      · obtain ⟨p,hp,hmsg⟩ := reaction_message hreact
        exact .inr ⟨p,hp,m,hmsg,hview⟩
    · have hsends := hreaction.sends p hp
      rw [hm] at hsends
      obtain ⟨_,now,table,hin,hpromotes⟩ := hsends
      exact hpass ⟨now,_,table,hin,hpromotes⟩

/-- Everything a step can be: the end of a node, or a turn of one in which it keeps its
identity. -/
theorem electionStep_cases (h : s.electionStep e = some t) :
    (∃ i, t = s.crashed i) ∨
    ∃ i r, t = s.reacted i r ∧ r.1.nodeId = (s.leaf i).nodeId ∧
      (Continues s i r ∨ Rises s e i r) := by
  cases e with
  | cluster e =>
    rcases step_cases h with ⟨i,_,_,rfl⟩ | ⟨i,up,input,r,hreact,_,hr,rfl⟩
    · exact .inl ⟨i,rfl⟩
    · exact .inr ⟨i,r,rfl,(KiviLeaf.react_reaction hr).identity.1,turn_of_react hreact hr⟩
  | heartbeat i now msg =>
    have hid := (PaxosNode.receiveHeartBeat_identity now msg (s.leaf i).toPaxosNode).1
    by_cases hrun : s.running i = true
    · simp only [electionStep,if_pos hrun,Option.some.injEq] at h
      exact .inr ⟨i,_,h.symm,hid,.inl ⟨rfl,.inl rfl,by simp⟩⟩
    · simp [electionStep,hrun] at h
  | election i up now =>
    by_cases hrun : s.running i = true
    swap
    · simp [electionStep,hrun] at h
    simp only [electionStep,if_pos hrun,Option.some.injEq] at h
    refine .inr ⟨i,_,h.symm,?_⟩
    rcases KiviLeaf.trySelfPromote_spec up now (s.leaf i) with ⟨he,hr⟩ | ⟨_,hr⟩
    · rw [hr]
      refine ⟨rfl,.inr ⟨⟨_,.inl ⟨up,now,rfl,rfl⟩,he⟩,rfl,rfl,fun p hp m hm => ?_⟩⟩
      obtain ⟨n,_,rfl,_⟩ := PaxosNode.mem_sendAll hp
      obtain rfl := Message.localSyncSelfPromotion.inj hm
      rfl
    · rw [hr]
      exact ⟨rfl,.inl ⟨rfl,.inl rfl,by simp⟩⟩

theorem Rises.promotesItself {r : KiviLeaf × List Packet} (h : Rises s e i r) :
    PromotesItself ⟨s,e,s.reacted i r⟩ i := by
  obtain ⟨table,_,he⟩ := h.moment
  constructor
  · change (s.leaf i).leafRole ≠ localLeader
    have hready : (s.leaf i).leafRole = promotionReadyReplica := he.ready
    rw [hready]
    decide
  · change ((s.reacted i r).leaf i).leafRole = localLeader
    rw [reacted_self]
    exact h.role

theorem rises_of_promotesItself (h : s.electionStep e = some t)
    (hp : PromotesItself ⟨s,e,t⟩ i) : ∃ r, t = s.reacted i r ∧ Rises s e i r := by
  obtain ⟨hbefore,hafter⟩ := hp
  dsimp only at hbefore hafter
  rcases electionStep_cases h with ⟨j,rfl⟩ | ⟨j,r,rfl,_,hturn⟩
  · exact absurd hafter hbefore
  · by_cases hij : i = j
    · subst j
      rcases hturn with hcontinues | hrises
      · rw [reacted_self,hcontinues.role] at hafter
        exact absurd hafter hbefore
      · exact ⟨r,rfl,hrises⟩
    · rw [reacted_ne hij] at hafter
      exact absurd hafter hbefore

theorem leafRole_electionStep (h : s.electionStep e = some t) (i : ι)
    (hi : (s.leaf i).leafRole = localLeader) : (t.leaf i).leafRole = localLeader := by
  rcases electionStep_cases h with ⟨j,rfl⟩ | ⟨j,r,rfl,_,hturn⟩
  · exact hi
  · by_cases hij : i = j
    · subst j
      rw [reacted_self]
      rcases hturn with hcontinues | hrises
      · rw [hcontinues.role,hi]
      · exact hrises.role
    · rwa [reacted_ne hij]

/-- Views of the leader and promotions on the network go back to the launch or to a node that
has promoted itself, and whoever has done so is still a leader. -/
structure Elected (launch : ι → Launch)
    (history : List (Taken (Cluster ι) (ElectionEvent ι))) (s : Cluster ι) : Prop where
  nodeId : ∀ i, (s.leaf i).nodeId = (launch i).nodeId
  view : ∀ i, (s.leaf i).currentLeaderId = (launch i).leaderId ∨
    ∃ k, (s.leaf i).currentLeaderId = (launch k).nodeId.toInt32 ∧
      ∃ x ∈ history, PromotesItself x k
  sent : ∀ p ∈ s.sent, ∀ m, p.msg = .localSyncSelfPromotion m →
    ∃ k, m.leaderNodeId = (launch k).nodeId ∧ ∃ x ∈ history, PromotesItself x k
  role : ∀ i, (∃ x ∈ history, PromotesItself x i) → (s.leaf i).leafRole = localLeader

theorem Elected.role_step (h : Elected launch history s) (hstep : s.electionStep e = some t) :
    ∀ i, (∃ x ∈ (⟨s,e,t⟩ :: history : List (Taken (Cluster ι) (ElectionEvent ι))),
      PromotesItself x i) → (t.leaf i).leafRole = localLeader := by
  rintro i ⟨x,hx,hp⟩
  rcases List.mem_cons.mp hx with rfl | hx
  · exact hp.2
  · exact leafRole_electionStep hstep i (h.role i ⟨x,hx,hp⟩)

theorem Elected.step (h : Elected launch history s) (hstep : s.electionStep e = some t) :
    Elected launch (⟨s,e,t⟩ :: history) t := by
  have hrole := h.role_step hstep
  have hview : ∀ i, (s.leaf i).currentLeaderId = (launch i).leaderId ∨
      ∃ k, (s.leaf i).currentLeaderId = (launch k).nodeId.toInt32 ∧
        ∃ x ∈ (⟨s,e,t⟩ :: history : List (Taken (Cluster ι) (ElectionEvent ι))),
          PromotesItself x k := by
    intro i
    rcases h.view i with hv | ⟨k,hk,hx⟩
    · exact .inl hv
    · exact .inr ⟨k,hk,List.exists_mem_cons_of_exists hx⟩
  have hsent : ∀ p ∈ s.sent, ∀ m, p.msg = .localSyncSelfPromotion m →
      ∃ k, m.leaderNodeId = (launch k).nodeId ∧
        ∃ x ∈ (⟨s,e,t⟩ :: history : List (Taken (Cluster ι) (ElectionEvent ι))),
          PromotesItself x k := by
    intro p hp m hm
    obtain ⟨k,hk,hx⟩ := h.sent p hp m hm
    exact ⟨k,hk,List.exists_mem_cons_of_exists hx⟩
  rcases electionStep_cases hstep with ⟨j,rfl⟩ | ⟨j,r,rfl,hid,hturn⟩
  · exact ⟨h.nodeId,hview,hsent,hrole⟩
  have hnew : Rises s e j r → ∃ x ∈ (⟨s,e,s.reacted j r⟩ :: history :
      List (Taken (Cluster ι) (ElectionEvent ι))), PromotesItself x j := fun hrises =>
    ⟨_,List.mem_cons_self,hrises.promotesItself⟩
  refine ⟨fun i => (reacted_same (f:=fun l => l.nodeId) hid i).trans (h.nodeId i),fun i => ?_,
    List.forall_mem_append.mpr ⟨hsent,fun p hp m hm => ?_⟩,hrole⟩
  · by_cases hij : i = j
    swap
    · rw [reacted_ne hij]
      exact hview i
    subst j
    rw [reacted_self]
    rcases hturn with hcontinues | hrises
    · rcases hcontinues.view with hsame | ⟨p,hp,m,hm,hleader⟩
      · rw [hsame]
        exact hview i
      · obtain ⟨k,hk,hx⟩ := hsent p hp m hm
        exact .inr ⟨k,by rw [hleader,hk],hx⟩
    · exact .inr ⟨i,by rw [hrises.view,h.nodeId],hnew hrises⟩
  · rcases hturn with hcontinues | hrises
    · exact absurd hm (hcontinues.silent p hp m)
    · exact ⟨j,(hrises.sends p hp m hm).trans (h.nodeId j),hnew hrises⟩

theorem elected_of_run (hrun : Run electionStep (Cluster.launch launch) history s) :
    Elected launch history s := by
  apply hrun.history_invariant
  · exact ⟨fun i => PaxosNode.registerClusterNodes_nodeId _ _ _,fun i => .inl rfl,
      by simp [Cluster.launch],by simp⟩
  · intro _ _ _ _ _ h hstep
    exact h.step hstep

theorem promotes_once (hrun : Run electionStep (Cluster.launch launch) history s) (i : ι) :
    history.Pairwise fun later earlier => ¬ (PromotesItself later i ∧ PromotesItself earlier i) := by
  induction hrun with
  | nil => exact List.Pairwise.nil
  | @snoc history s e t hrun hstep ih =>
    refine List.pairwise_cons.mpr ⟨?_,ih⟩
    rintro x hx ⟨hlater,hearlier⟩
    exact hlater.1 ((elected_of_run hrun).role i ⟨x,hx,hearlier⟩)

/-- What is claimed of elections in a state reached by a run. -/
structure ValidElections (launch : ι → Launch)
    (history : List (Taken (Cluster ι) (ElectionEvent ι))) (s : Cluster ι) : Prop where
  followed : ∀ i, (s.leaf i).currentLeaderId = (launch i).leaderId ∨
    ∃ k, (s.leaf i).currentLeaderId.toInt64 = (launch k).nodeId ∧
      ∃ x ∈ history, PromotesItself x k
  once : ∀ i, history.Pairwise fun later earlier =>
    ¬ (PromotesItself later i ∧ PromotesItself earlier i)
  moment : ∀ x ∈ history, ∀ i, PromotesItself x i → ∃ table,
    MomentOf i x.event (x.pre.leaf i) table ∧
    (∃ n ∈ table, n.nodeId = (x.pre.leaf i).currentLeaderId.toInt64) ∧
    (∀ n ∈ table, n.nodeId = (x.pre.leaf i).currentLeaderId.toInt64 → n.isAlive = false) ∧
    ∀ n ∈ table, n.isAlive = true → ¬ n.nodeId < (launch i).nodeId
  accepts : ∀ i, acceptsPut (s.leaf i) = true →
    (launch i).leaderId.toInt64 = (launch i).nodeId ∨ ∃ x ∈ history, PromotesItself x i

theorem validElections_of_run (hdistinct : Function.Injective fun i => (launch i).nodeId)
    (hrange : ∀ i, (launch i).nodeId.toInt32.toInt64 = (launch i).nodeId)
    (hrun : Run electionStep (Cluster.launch launch) history s) :
    ValidElections launch history s := by
  have h := elected_of_run hrun
  refine ⟨fun i => ?_,promotes_once hrun,fun x hx i hp => ?_,fun i hacc => ?_⟩
  · rcases h.view i with hv | ⟨k,hk,hx⟩
    · exact .inl hv
    · exact .inr ⟨k,by rw [hk,hrange],hx⟩
  · obtain ⟨hstep,before,hbefore,_⟩ := hrun.taken_step hx
    obtain ⟨r,_,hrises⟩ := rises_of_promotesItself hstep hp
    obtain ⟨table,hmoment,he⟩ := hrises.moment
    refine ⟨table,hmoment,he.listed,fun n hn hid => ?_,fun n hn halive => ?_⟩
    · by_contra halive
      rw [Bool.not_eq_false] at halive
      exact (he.lowest n hn halive).1 hid
    · rw [← (elected_of_run hbefore).nodeId i]
      exact (he.lowest n hn halive).2
  · have hown : (launch i).nodeId = (s.leaf i).currentLeaderId.toInt64 := by
      rw [← h.nodeId i]
      exact of_decide_eq_true hacc
    rcases h.view i with hv | ⟨k,hk,hx⟩
    · exact .inl (by rw [← hv,hown])
    · rw [hk,hrange] at hown
      obtain rfl : i = k := hdistinct hown
      exact .inr hx

/-- The second node of the usage comment finds the leader silent. -/
theorem validElections_of_run_trio : ∃ history s, history ≠ [] ∧
    Run electionStep (Cluster.launch trio) history s ∧ ValidElections trio history s := by
  have hend : ((Transition.exec electionStep (Cluster.launch trio)
      [.cluster (.input 1 unreachable (.detect 20000 20000))]).any fun s =>
        acceptsPut (s.leaf 1)) = true := by
    decide +kernel
  obtain ⟨history,s,hrun,hevents,_⟩ := Run.of_exec_any _ hend
  have hne : history ≠ [] := by
    rintro rfl
    simp at hevents
  exact ⟨history,s,hne,hrun,
    validElections_of_run trio_oneLeader.distinct trio_oneLeader.intRange hrun⟩

end Cluster
end Kivi
