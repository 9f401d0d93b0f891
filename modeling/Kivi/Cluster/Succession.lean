import Kivi.Cluster.Election

/-! When a pass of the failure detector leaves a ready replica stuck: its leader dead, no
lower node alive, and the replica not promoted. -/
namespace Kivi

open Transition (Run Taken)

namespace KiviLeaf

open PaxosNode (detectEntry expires)

/-- The replica should lead, since its leader is dead and no lower id alive, and does not. -/
structure Stuck (s : KiviLeaf) : Prop where
  ready : s.leafRole = promotionReadyReplica
  leaderDead : ∃ n ∈ s.localClusterNodes, n.nodeId = s.currentLeaderId.toInt64 ∧ n.isAlive = false
  lowest : ∀ n ∈ s.localClusterNodes, n.isAlive = true → ¬ n.nodeId < s.nodeId

instance (s : KiviLeaf) : Decidable s.Stuck :=
  decidable_of_iff (s.leafRole = promotionReadyReplica ∧
      (∃ n ∈ s.localClusterNodes, n.nodeId = s.currentLeaderId.toInt64 ∧ n.isAlive = false) ∧
      ∀ n ∈ s.localClusterNodes, n.isAlive = true → ¬ n.nodeId < s.nodeId)
    ⟨fun h => ⟨h.1,h.2.1,h.2.2⟩,fun h => ⟨h.ready,h.leaderDead,h.lowest⟩⟩

def Survives (now : Int64) (s : KiviLeaf) (n : PaxosNodeDescriptor) : Prop :=
  n.nodeId = s.nodeId ∨ n.isAlive = true ∧ n.expired now = false

/-- Before a pass at `now`: the leaf need not lead after it, or the watched leader expires in
it and behind its entry neither the current leader nor a lower id is still marked alive. -/
def Succeeds (now : Int64) (s : KiviLeaf) : Prop :=
  s.leafRole ≠ promotionReadyReplica ∨
  (∀ n ∈ s.localClusterNodes, n.nodeId = s.currentLeaderId.toInt64 → s.Survives now n) ∨
  (∃ n ∈ s.localClusterNodes, n.nodeId < s.nodeId ∧ s.Survives now n) ∨
  ∃ before w after, s.localClusterNodes = before ++ w :: after ∧
    w.nodeId = s.localClusterLeader ∧ expires s.nodeId now w = true ∧
    ∀ n ∈ after, n.nodeId = s.currentLeaderId.toInt64 ∨ n.nodeId < s.nodeId → n.isAlive = false

variable {s : KiviLeaf} {now : Int64}

/-- A pass that finds nobody to replace the leader although it could leaves the leaf stuck. -/
theorem stuck_of_not_succeeds (up : Reachability) (promotedAt : Int64)
    (h : ¬ s.Succeeds now) : (s.detectFailures up now promotedAt).1.Stuck := by
  simp only [Succeeds,not_or] at h
  obtain ⟨hready,hleader,hlower,hsplit⟩ := h
  rw [not_not] at hready
  push Not at hleader
  rcases detectFailures_spec up now promotedAt s with ⟨table,hpass,_⟩ | ⟨_,hr⟩
  · obtain ⟨before,w,after,hs,hexp,hw,rfl,he⟩ := hpass
    refine absurd ⟨before,w,after,hs,hw,hexp,fun n hn hor => ?_⟩ hsplit
    by_contra halive
    rw [Bool.not_eq_false] at halive
    have hlow := he.lowest n (List.mem_append_right _ hn) halive
    exact hor.elim hlow.1 hlow.2
  · rw [hr]
    refine ⟨hready,?_,?_⟩
    · obtain ⟨n,hn,hid,hdead⟩ := hleader
      refine ⟨_,List.mem_map_of_mem hn,by rw [PaxosNode.detectEntry_nodeId]; exact hid,?_⟩
      rw [← Bool.not_eq_true]
      exact fun halive => hdead ((PaxosNode.detectEntry_isAlive n).mp halive)
    · intro n hn halive hlt
      obtain ⟨m,hm,rfl⟩ := List.mem_map.mp hn
      rw [PaxosNode.detectEntry_nodeId] at hlt
      exact hlower ⟨m,hm,hlt,(PaxosNode.detectEntry_isAlive m).mp halive⟩

theorem not_stuck_of_succeeds (up : Reachability) (promotedAt : Int64)
    (hn : (s.localClusterNodes.map PaxosNodeDescriptor.nodeId).Nodup) (h : s.Succeeds now) :
    ¬ (s.detectFailures up now promotedAt).1.Stuck := by
  intro hstuck
  rcases detectFailures_spec up now promotedAt s with ⟨_,_,hr⟩ | ⟨hnone,hr⟩
  · rw [hr] at hstuck
    exact promoted_not_ready _ hstuck.ready
  rw [hr] at hstuck
  obtain ⟨leader,hleader,hid,hdead⟩ := hstuck.leaderDead
  obtain ⟨l,hl,rfl⟩ := List.mem_map.mp hleader
  rw [PaxosNode.detectEntry_nodeId] at hid
  have hnot : ¬ s.Survives now l := by
    intro hsurvives
    rw [(PaxosNode.detectEntry_isAlive l).mpr hsurvives] at hdead
    exact absurd hdead (by decide)
  rcases h with hrole | hall | ⟨n,hn,hlt,hsurvives⟩ | ⟨before,w,after,hsplit,hw,hexp,hafter⟩
  · exact hrole hstuck.ready
  · exact hnot (hall l hl hid)
  · refine hstuck.lowest _ (List.mem_map_of_mem hn) ((PaxosNode.detectEntry_isAlive n).mpr hsurvives) ?_
    rwa [PaxosNode.detectEntry_nodeId]
  · refine hnone _ ⟨before,w,after,hsplit,hexp,hw,rfl,hstuck.ready,?_,?_⟩
    · have hmem : l ∈ before ++ [w] ∨ l ∈ after := by
        rw [hsplit] at hl
        simp only [List.mem_append,List.mem_cons] at hl ⊢
        tauto
      rcases hmem with hmem | hmem
      · exact ⟨_,List.mem_append_left _ (List.mem_map_of_mem hmem),
          by rw [PaxosNode.detectEntry_nodeId]; exact hid⟩
      · exact ⟨l,List.mem_append_right _ hmem,hid⟩
    · intro n hmem halive
      rcases List.mem_append.mp hmem with hmem | hmem
      · obtain ⟨m,hm,rfl⟩ := List.mem_map.mp hmem
        have hms : m ∈ s.localClusterNodes := by
          rw [hsplit]
          simp only [List.mem_append,List.mem_cons,List.not_mem_nil,or_false] at hm ⊢
          tauto
        refine ⟨fun hmid => ?_,hstuck.lowest _ (List.mem_map_of_mem hms) halive⟩
        rw [withTable_currentLeaderId,PaxosNode.detectEntry_nodeId] at hmid
        have hml : m = l := List.inj_on_of_nodup_map hn hms hl (hmid.trans hid.symm)
        subst m
        exact hnot ((PaxosNode.detectEntry_isAlive l).mp halive)
      · constructor
        · intro hmid
          have hdeadn := hafter n hmem (.inl hmid)
          rw [halive] at hdeadn
          exact absurd hdeadn (by decide)
        · intro hlt
          have hdeadn := hafter n hmem (.inr hlt)
          rw [halive] at hdeadn
          exact absurd hdeadn (by decide)

end KiviLeaf

namespace Cluster

/-- In every run, a pass leaves the acting node stuck unless it succeeds in the sense above. -/
theorem pass_not_stuck_iff {ι : Type} [DecidableEq ι] {launch : ι → Launch} {leader : ι}
    (h : OneLeader launch leader) {history : List (Taken (Cluster ι) (Event ι))} {s : Cluster ι}
    (hrun : Run step (Cluster.launch launch) history s) {x : Taken (Cluster ι) (Event ι)}
    (hx : x ∈ history) {i : ι} {up : Reachability} {now promotedAt : Int64}
    (he : x.event = .input i up (.detect now promotedAt)) :
    ¬ (x.post.leaf i).Stuck ↔ (x.pre.leaf i).Succeeds now := by
  obtain ⟨hstep,before,hbefore,_⟩ := hrun.taken_step hx
  have hlisted := (lasting_of_run h hbefore i).listedOnce
  rw [he] at hstep
  rw [detect_post hstep]
  constructor
  · intro hnot
    by_contra hfail
    exact hnot (KiviLeaf.stuck_of_not_succeeds up promotedAt hfail)
  · exact KiviLeaf.not_stuck_of_succeeds up promotedAt hlisted

theorem trio_pass (i : Fin 3) : ∃ t,
    (Cluster.launch trio).step (.input i unreachable (.detect 20000 20000)) = some t := by
  apply Option.isSome_iff_exists.mp
  revert i
  decide +kernel

theorem pass_not_stuck_iff_trio : ∃ t,
    (Cluster.launch trio).step (.input 1 unreachable (.detect 20000 20000)) = some t ∧
      (¬ (t.leaf 1).Stuck ↔ ((Cluster.launch trio).leaf 1).Succeeds 20000) := by
  obtain ⟨t,ht⟩ := trio_pass 1
  exact ⟨t,ht,pass_not_stuck_iff trio_oneLeader (Run.nil.snoc ht) List.mem_cons_self rfl⟩

/-- Two nodes silent for twenty seconds are found dead in one pass of the third, the leader
first: while the third looks, the other replica still counts as alive. -/
theorem trio_stuck : ¬ ∀ (launch : Fin 3 → Launch) (leader : Fin 3), OneLeader launch leader →
    ∀ history s, Run step (Cluster.launch launch) history s → ∀ x ∈ history,
      ∀ i up now promotedAt, x.event = .input i up (.detect now promotedAt) →
        ¬ (x.post.leaf i).Stuck := by
  intro h
  obtain ⟨t,ht⟩ := trio_pass 2
  have hnot := h trio 0 trio_oneLeader _ t (Run.nil.snoc ht) _ List.mem_cons_self 2 unreachable
    20000 20000 rfl
  have hstuck : ((((Cluster.launch trio).leaf 2).detectFailures unreachable 20000 20000).1).Stuck := by
    decide +kernel
  rw [detect_post ht] at hnot
  exact hnot hstuck

end Cluster
end Kivi
