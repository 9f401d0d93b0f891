import Kivi.Cluster.System

/-! Elections over whole runs: who can come to accept writes, and when a pass of the failure
detector leaves a ready replica without a leader. -/
namespace Kivi

open Transition (Run Taken)

theorem PaxosNode.registerClusterNodes_ids (now : Int64) (ns : List PaxosNodeSharableDescriptor)
    (s : PaxosNode) :
    (s.registerClusterNodes now ns).localClusterNodes.map PaxosNodeDescriptor.nodeId =
      s.localClusterNodes.map PaxosNodeDescriptor.nodeId ++
        ns.map PaxosNodeSharableDescriptor.nodeId := by
  induction ns generalizing s with
  | nil => simp [registerClusterNodes]
  | cons n ns ih =>
    have hrest := ih (s.addNewNode now n 2)
    have hids : (s.addNewNode now n 2).localClusterNodes.map PaxosNodeDescriptor.nodeId =
        s.localClusterNodes.map PaxosNodeDescriptor.nodeId ++ [n.nodeId] := by
      simp [addNewNode]
    rw [hids] at hrest
    simpa [registerClusterNodes] using hrest

theorem PaxosNode.registerClusterNodes_nodeId (now : Int64)
    (ns : List PaxosNodeSharableDescriptor) (s : PaxosNode) :
    (s.registerClusterNodes now ns).nodeId = s.nodeId := by
  induction ns generalizing s with
  | nil => rfl
  | cons n ns ih =>
    have hrest := ih (s.addNewNode now n 2)
    simpa [registerClusterNodes,addNewNode] using hrest

/-- The nodes have distinct ids that fit an `int`, register one list of nodes, and follow and
watch one leader, the only node started as such. -/
structure OneLeader {ι : Type} [DecidableEq ι] (launch : ι → Launch) (leader : ι) : Prop where
  distinct : Function.Injective fun i => (launch i).nodeId
  intRange : ∀ i, (launch i).nodeId.toInt32.toInt64 = (launch i).nodeId
  role : ∀ i, (launch i).leafRole = if i = leader then localLeader else promotionReadyReplica
  leaderId : ∀ i, (launch i).leaderId = (launch leader).nodeId.toInt32
  watched : ∀ i, (launch i).watched = (launch leader).nodeId
  cluster : ∀ i, (launch i).cluster = (launch leader).cluster
  listedOnce : ((launch leader).cluster.map PaxosNodeSharableDescriptor.nodeId).Nodup

namespace KiviLeaf

open PaxosNode (detectEntry expires)

variable {s : KiviLeaf} {now : Int64} {table : List PaxosNodeDescriptor}

structure Lasting (a : Launch) (s : KiviLeaf) : Prop where
  nodeId : s.nodeId = a.nodeId
  watched : s.localClusterLeader = a.watched
  listedOnce : (s.localClusterNodes.map PaxosNodeDescriptor.nodeId).Nodup

theorem lasting_launch {a : Launch}
    (h : (a.cluster.map PaxosNodeSharableDescriptor.nodeId).Nodup) : a.leaf.Lasting a where
  nodeId := PaxosNode.registerClusterNodes_nodeId _ _ _
  watched := rfl
  listedOnce := by
    have hids := PaxosNode.registerClusterNodes_ids a.registeredAt a.cluster
      (PaxosNode.new a.nodeId a.nodeIp a.nodePort a.isProposer)
    have htable : a.leaf.localClusterNodes.map PaxosNodeDescriptor.nodeId =
        a.cluster.map PaxosNodeSharableDescriptor.nodeId := hids
    rwa [htable]

theorem Lasting.react {a : Launch} {up : Reachability} {input : Input}
    {r : KiviLeaf × List Packet} (h : s.Lasting a) (hr : s.react up input = .ok r) :
    r.1.Lasting a := by
  have hreact := react_reaction hr
  obtain ⟨hid,_,_,hwatched⟩ := hreact.identity
  refine ⟨hid.trans h.nodeId,hwatched.trans h.watched,?_⟩
  rcases hreact.table with hids | ⟨id,hnew,hids⟩
  · rw [hids]
    exact h.listedOnce
  · rw [hids,List.nodup_append]
    refine ⟨h.listedOnce,by simp,?_⟩
    rintro x hx y hy rfl
    rw [List.mem_singleton] at hy
    exact hnew (hy ▸ hx)

/-- After a pass that promotes the leaf, no entry of lower id is alive in its table. -/
theorem PromotesInPass.lower_dead (h : s.PromotesInPass now table) {n : PaxosNodeDescriptor}
    (hn : n ∈ s.localClusterNodes.map (detectEntry s.nodeId now)) (hlt : n.nodeId < s.nodeId) :
    n.isAlive = false := by
  obtain ⟨before,w,after,hsplit,_,_,rfl,he⟩ := h
  by_contra halive
  rw [Bool.not_eq_false] at halive
  rw [hsplit] at hn
  have hmem : n ∈ (before ++ [w]).map (detectEntry s.nodeId now) ∨
      n ∈ after.map (detectEntry s.nodeId now) := by
    simp only [List.map_append,List.map_cons,List.mem_append,List.mem_cons] at hn ⊢
    tauto
  rcases hmem with hmem | hmem
  · exact (he.lowest n (List.mem_append_left _ hmem) halive).2 hlt
  · obtain ⟨m,hm,rfl⟩ := List.mem_map.mp hmem
    rw [PaxosNode.detectEntry_nodeId] at hlt
    have hne : m.nodeId ≠ s.nodeId := by
      intro heq
      rw [heq] at hlt
      exact Int64.lt_irrefl hlt
    have hm' := PaxosNode.isAlive_of_detectEntry hne halive
    exact (he.lowest m (List.mem_append_right _ hm) hm').2 hlt

theorem PromotesInPass.watched_dead (h : s.PromotesInPass now table)
    (hn : (s.localClusterNodes.map PaxosNodeDescriptor.nodeId).Nodup) {n : PaxosNodeDescriptor}
    (hmem : n ∈ s.localClusterNodes.map (detectEntry s.nodeId now))
    (hid : n.nodeId = s.localClusterLeader) : n.isAlive = false := by
  obtain ⟨before,w,after,hsplit,hexp,hw,_,_⟩ := h
  obtain ⟨m,hm,rfl⟩ := List.mem_map.mp hmem
  rw [PaxosNode.detectEntry_nodeId] at hid
  have hwmem : w ∈ s.localClusterNodes := by simp [hsplit]
  have hmw : m = w := List.inj_on_of_nodup_map hn hm hwmem (hid.trans hw.symm)
  subst m
  obtain ⟨hself,hexpired,halive⟩ := (PaxosNode.expires_iff w).mp hexp
  simp [detectEntry,hself,hexpired,halive]

end KiviLeaf

namespace Cluster

open PaxosNode (detectEntry)
open RestController (acceptsPut)
open KiviLeaf (Lasting)

variable {ι : Type} [DecidableEq ι] {launch : ι → Launch} {leader : ι}
  {s : Cluster ι} {history : List (Taken (Cluster ι) (Event ι))}

theorem lasting_of_run (h : OneLeader launch leader)
    (hrun : Run step (Cluster.launch launch) history s) (i : ι) :
    (s.leaf i).Lasting (launch i) := by
  have h₀ : ((Cluster.launch launch).leaf i).Lasting (launch i) :=
    KiviLeaf.lasting_launch (by rw [h.cluster]; exact h.listedOnce)
  exact hrun.invariant (I:=fun s => (s.leaf i).Lasting (launch i)) h₀ fun _ _ _ hs hstep =>
    leaf_step (fun _ _ _ _ hP hr => hP.react hr) hstep i hs

def PromotedIn (x : Taken (Cluster ι) (Event ι)) (i : ι) : Prop :=
  ∃ up now promotedAt table, x.event = .input i up (.detect now promotedAt) ∧
    (x.pre.leaf i).PromotesInPass now table

theorem detect_post {pre post : Cluster ι} {i : ι} {up : Reachability} {now promotedAt : Int64}
    (h : pre.step (.input i up (.detect now promotedAt)) = some post) :
    post.leaf i = ((pre.leaf i).detectFailures up now promotedAt).1 := by
  rcases step_cases h with ⟨j,he,_,_⟩ | ⟨j,up',input,r,hreact,_,hr,rfl⟩
  · simp at he
  · simp only [reaction,Option.some.injEq,Prod.mk.injEq] at hreact
    obtain ⟨rfl,rfl,rfl⟩ := hreact
    rw [reacted_self,← Except.ok.inj hr]

/-- Promotions and views of the leader go back to the launch or to a promotion. -/
structure Traced (launch : ι → Launch) (leader : ι)
    (history : List (Taken (Cluster ι) (Event ι))) (s : Cluster ι) : Prop where
  sent : ∀ p ∈ s.sent, ∀ m, p.msg = .localSyncSelfPromotion m →
    ∃ k, m.leaderNodeId = (launch k).nodeId ∧ ∃ x ∈ history, PromotedIn x k
  view : ∀ i, (s.leaf i).currentLeaderId = (launch leader).nodeId.toInt32 ∨
    ∃ k, (s.leaf i).currentLeaderId = (launch k).nodeId.toInt32 ∧ ∃ x ∈ history, PromotedIn x k

theorem Traced.step {t : Cluster ι} {e : Event ι} (h : Traced launch leader history s)
    (hlast : ∀ i, (s.leaf i).Lasting (launch i)) (hstep : s.step e = some t) :
    Traced launch leader (⟨s,e,t⟩ :: history) t := by
  have hview : ∀ j, (s.leaf j).currentLeaderId = (launch leader).nodeId.toInt32 ∨
      ∃ k, (s.leaf j).currentLeaderId = (launch k).nodeId.toInt32 ∧
        ∃ x ∈ (⟨s,e,t⟩ :: history : List (Taken (Cluster ι) (Event ι))), PromotedIn x k := by
    intro j
    rcases h.view j with hv | ⟨k,hk,hx⟩
    · exact .inl hv
    · exact .inr ⟨k,hk,List.exists_mem_cons_of_exists hx⟩
  have hsent : ∀ p ∈ s.sent, ∀ m, p.msg = .localSyncSelfPromotion m →
      ∃ k, m.leaderNodeId = (launch k).nodeId ∧
        ∃ x ∈ (⟨s,e,t⟩ :: history : List (Taken (Cluster ι) (Event ι))), PromotedIn x k := by
    intro p hp m hm
    obtain ⟨k,hk,hx⟩ := h.sent p hp m hm
    exact ⟨k,hk,List.exists_mem_cons_of_exists hx⟩
  rcases step_cases hstep with ⟨i,_,_,rfl⟩ | ⟨i,up,input,r,hreact,_,hr,rfl⟩
  · exact ⟨hsent,hview⟩
  have hreaction := KiviLeaf.react_reaction hr
  have hpromoted : ∀ now promotedAt table, input = .detect now promotedAt →
      (s.leaf i).PromotesInPass now table →
      ∃ x ∈ (⟨s,e,s.reacted i r⟩ :: history : List (Taken (Cluster ι) (Event ι))),
        PromotedIn x i := by
    rintro now promotedAt table rfl hp
    obtain rfl := reaction_input hreact (by simp)
    exact ⟨_,List.mem_cons_self,up,now,promotedAt,table,rfl,hp⟩
  refine ⟨List.forall_mem_append.mpr ⟨hsent,fun p hp m hm => ?_⟩,fun j => ?_⟩
  · have hsends := hreaction.sends p hp
    rw [hm] at hsends
    obtain ⟨hid,now,table,hin,hpass⟩ := hsends
    exact ⟨i,hid.trans (hlast i).nodeId,hpromoted now _ table hin hpass⟩
  · by_cases hij : j = i
    swap
    · rw [reacted_ne hij]
      exact hview j
    subst j
    rw [reacted_self]
    rcases hreaction.election with ⟨_,hleader⟩ | ⟨now,promotedAt,table,hin,hp,_,hleader⟩ |
      ⟨m,clock,order,hin,_,hleader⟩
    · rw [hleader]
      exact hview i
    · refine .inr ⟨i,?_,hpromoted now promotedAt table hin hp⟩
      rw [hleader,(hlast i).nodeId]
    · subst hin
      obtain ⟨p,hp,hmsg⟩ := reaction_message hreact
      obtain ⟨k,hk,hx⟩ := hsent p hp m hmsg
      exact .inr ⟨k,by rw [hleader,hk],hx⟩

theorem traced_of_run (h : OneLeader launch leader)
    (hrun : Run step (Cluster.launch launch) history s) : Traced launch leader history s := by
  apply hrun.history_invariant
  · exact ⟨by simp [Cluster.launch],fun i => .inl (h.leaderId i)⟩
  · intro _ _ _ _ hbefore htraced hstep
    exact htraced.step (lasting_of_run h hbefore) hstep

/-- Whoever accepts writes was launched as the leader or has promoted itself. -/
theorem promoted_of_acceptsPut (h : OneLeader launch leader)
    (hrun : Run step (Cluster.launch launch) history s) {i : ι}
    (hi : acceptsPut (s.leaf i) = true) : i = leader ∨ ∃ x ∈ history, PromotedIn x i := by
  have hid := (lasting_of_run h hrun i).nodeId
  have haccept : (launch i).nodeId = (s.leaf i).currentLeaderId.toInt64 := by
    rw [← hid]
    exact of_decide_eq_true hi
  rcases (traced_of_run h hrun).view i with hv | ⟨k,hk,hx⟩
  · left
    rw [hv,h.intRange] at haccept
    exact h.distinct haccept
  · right
    rw [hk,h.intRange] at haccept
    obtain rfl : i = k := h.distinct haccept
    exact hx

/-- Node `i` becomes leader in this step, a pass of its failure detector. -/
structure TakesOver (x : Taken (Cluster ι) (Event ι)) (i : ι) : Prop where
  pass : ∃ up now promotedAt, x.event = .input i up (.detect now promotedAt)
  before : (x.pre.leaf i).leafRole = promotionReadyReplica
  after : (x.post.leaf i).leafRole = localLeader

/-- Node `i` becomes leader in this step and is left with a table that holds no alive entry
of node `j`, although `j` is running. -/
structure PromotedOver (x : Taken (Cluster ι) (Event ι)) (i j : ι) : Prop
    extends TakesOver x i where
  running : x.pre.running j = true
  unlisted : ∀ n ∈ (x.post.leaf i).localClusterNodes, n.nodeId = (x.post.leaf j).nodeId →
    n.isAlive = false

theorem promotedOver_of_promotedIn (h : OneLeader launch leader)
    (hrun : Run step (Cluster.launch launch) history s) {x : Taken (Cluster ι) (Event ι)}
    (hx : x ∈ history) {i j : ι} (hj : s.running j = true) (hp : PromotedIn x i)
    (hdead : (launch j).nodeId < (launch i).nodeId ∨ j = leader) : PromotedOver x i j := by
  obtain ⟨hstep,before,hbefore,_⟩ := hrun.taken_step hx
  have hpre := lasting_of_run h hbefore
  have hpost := lasting_of_run h (hbefore.snoc hstep)
  obtain ⟨up,now,promotedAt,table,hevent,hpass⟩ := hp
  rw [hevent] at hstep
  have hleaf := detect_post hstep
  have hready : (x.pre.leaf i).leafRole = promotionReadyReplica := by
    obtain ⟨_,_,_,_,_,_,_,he⟩ := hpass
    exact he.ready
  have hmarked : (x.post.leaf i).leafRole = localLeader ∧ (x.post.leaf i).localClusterNodes =
      (x.pre.leaf i).localClusterNodes.map (detectEntry (x.pre.leaf i).nodeId now) := by
    rcases KiviLeaf.detectFailures_spec up now promotedAt (x.pre.leaf i) with
      ⟨_,_,hr⟩ | ⟨hnone,_⟩
    · rw [hleaf,hr]
      exact ⟨rfl,rfl⟩
    · exact absurd hpass (hnone table)
  refine ⟨⟨⟨up,now,promotedAt,hevent⟩,hready,hmarked.1⟩,running_of_run hrun hj hx,?_⟩
  intro n hn hid
  rw [hmarked.2] at hn
  rw [(hpost j).nodeId] at hid
  rcases hdead with hlt | rfl
  · refine hpass.lower_dead hn ?_
    rwa [hid,(hpre i).nodeId]
  · refine hpass.watched_dead (hpre i).listedOnce hn ?_
    rw [hid,(hpre i).watched,h.watched]

/-- Two running nodes both accept writes only if one of them promoted itself with a table
that had no alive entry of the other. -/
theorem rivals_promotedOver {ι : Type} [DecidableEq ι] {launch : ι → Launch} {leader : ι}
    (h : OneLeader launch leader) {history : List (Taken (Cluster ι) (Event ι))} {s : Cluster ι}
    (hrun : Run step (Cluster.launch launch) history s) {i j : ι} (hij : i ≠ j)
    (hi : s.running i = true) (hj : s.running j = true)
    (hacci : acceptsPut (s.leaf i) = true) (haccj : acceptsPut (s.leaf j) = true) :
    ∃ x ∈ history, PromotedOver x i j ∨ PromotedOver x j i := by
  have hne : (launch i).nodeId ≠ (launch j).nodeId := fun he => hij (h.distinct he)
  rcases promoted_of_acceptsPut h hrun hacci with rfl | ⟨x,hx,hpi⟩
  · rcases promoted_of_acceptsPut h hrun haccj with rfl | ⟨y,hy,hpj⟩
    · exact absurd rfl hij
    · exact ⟨y,hy,.inr (promotedOver_of_promotedIn h hrun hy hi hpj (.inr rfl))⟩
  · rcases promoted_of_acceptsPut h hrun haccj with rfl | ⟨y,hy,hpj⟩
    · exact ⟨x,hx,.inl (promotedOver_of_promotedIn h hrun hx hj hpi (.inr rfl))⟩
    · by_cases hlt : (launch i).nodeId < (launch j).nodeId
      · exact ⟨y,hy,.inr (promotedOver_of_promotedIn h hrun hy hi hpj (.inl hlt))⟩
      · have hgt : (launch j).nodeId < (launch i).nodeId := by grind
        exact ⟨x,hx,.inl (promotedOver_of_promotedIn h hrun hx hj hpi (.inl hgt))⟩

theorem trio_oneLeader : OneLeader trio 0 where
  distinct := by
    intro i j
    revert i j
    decide
  intRange := by decide
  role := fun _ => rfl
  leaderId := fun _ => (by decide : (10000 : Int32) = (trio 0).nodeId.toInt32)
  watched := fun _ => rfl
  cluster := fun _ => rfl
  listedOnce := by decide

theorem trio_split_brain : ∃ history s, Run step (Cluster.launch trio) history s ∧
    (s.running 0 && s.running 1 && acceptsPut (s.leaf 0) && acceptsPut (s.leaf 1)) = true := by
  have hend : ((Transition.exec step (Cluster.launch trio)
      [.input 1 unreachable (.detect 20000 20000)]).any fun s =>
        s.running 0 && s.running 1 && acceptsPut (s.leaf 0) && acceptsPut (s.leaf 1)) = true := by
    decide +kernel
  obtain ⟨history,s,hrun,_,hs⟩ := Run.of_exec_any _ hend
  exact ⟨history,s,hrun,hs⟩

theorem not_election_safety : ¬ ∀ (launch : Fin 3 → Launch) (leader : Fin 3),
    OneLeader launch leader → ∀ history s, Run step (Cluster.launch launch) history s →
      ∀ i j, s.running i = true → s.running j = true → acceptsPut (s.leaf i) = true →
        acceptsPut (s.leaf j) = true → i = j := by
  intro h
  obtain ⟨history,s,hrun,hs⟩ := trio_split_brain
  simp only [Bool.and_eq_true] at hs
  have heq := h trio 0 trio_oneLeader history s hrun 0 1 hs.1.1.1 hs.1.1.2 hs.1.2 hs.2
  exact absurd heq (by decide)

theorem rivals_promotedOver_trio : ∃ history s, Run step (Cluster.launch trio) history s ∧
    ∃ x ∈ history, PromotedOver x 0 1 ∨ PromotedOver x 1 0 := by
  obtain ⟨history,s,hrun,hs⟩ := trio_split_brain
  simp only [Bool.and_eq_true] at hs
  exact ⟨history,s,hrun,rivals_promotedOver trio_oneLeader hrun (by decide) hs.1.1.1 hs.1.1.2
    hs.1.2 hs.2⟩

end Cluster
end Kivi
