import Kivi.Cluster.Redirects
import Kivi.Cluster.Heartbeats

/-! When the heir of the leader takes over: at the first pass at which the leader has been silent
for too long, and then for ever. -/
namespace Kivi

open Transition (Run Taken)
open RestController (acceptsPut)
open PaxosNodeDescriptor (silenceLimit)

namespace KiviLeaf

open PaxosNode (detectEntry expires)

/-- A ready replica that finds the leader it follows and watches dead takes over if no other
entry has a lower id. -/
theorem promotesInPass_of_expires {s : KiviLeaf} {now : Int64}
    (hlisted : (s.localClusterNodes.map PaxosNodeDescriptor.nodeId).Nodup)
    (hready : s.leafRole = promotionReadyReplica)
    (hfollows : s.currentLeaderId.toInt64 = s.localClusterLeader) {w : PaxosNodeDescriptor}
    (hw : w ∈ s.localClusterNodes) (hid : w.nodeId = s.localClusterLeader)
    (hexp : expires s.nodeId now w = true)
    (hlowest : ∀ n ∈ s.localClusterNodes,
      n.nodeId = s.localClusterLeader ∨ ¬ n.nodeId < s.nodeId) :
    ∃ table, s.PromotesInPass now table := by
  obtain ⟨before,after,hsplit⟩ := List.append_of_mem hw
  obtain ⟨hself,hexpired,_⟩ := (PaxosNode.expires_iff w).mp hexp
  have hbehind : ∀ n ∈ after, n.nodeId ≠ w.nodeId := by
    intro n hn heq
    rw [hsplit,List.map_append,List.map_cons,List.nodup_append] at hlisted
    exact (List.nodup_cons.mp hlisted.2.1).1 (heq ▸ List.mem_map_of_mem hn)
  -- the entries in the middle of the sweep: only that of the leader has its id, and it is dead
  have hmiddle : ∀ n ∈ (before ++ [w]).map (detectEntry s.nodeId now) ++ after,
      n.isAlive = true → n.nodeId ≠ s.localClusterLeader ∧ ∃ m ∈ s.localClusterNodes,
        m.nodeId = n.nodeId := by
    intro n hn halive
    rcases List.mem_append.mp hn with hn | hn
    · obtain ⟨m,hm,rfl⟩ := List.mem_map.mp hn
      have hmem : m ∈ s.localClusterNodes := by
        rw [hsplit]
        simp only [List.mem_append,List.mem_cons,List.not_mem_nil,or_false] at hm ⊢
        tauto
      refine ⟨fun heq => ?_,m,hmem,(PaxosNode.detectEntry_nodeId m).symm⟩
      rw [PaxosNode.detectEntry_nodeId] at heq
      obtain rfl : m = w := List.inj_on_of_nodup_map hlisted hmem hw (heq.trans hid.symm)
      rcases (PaxosNode.detectEntry_isAlive m).mp halive with hown | ⟨_,hfresh⟩
      · exact hself hown
      · rw [hexpired] at hfresh
        cases hfresh
    · exact ⟨fun heq => hbehind n hn (heq.trans hid.symm),n,by simp [hsplit,hn],rfl⟩
  refine ⟨_,before,w,after,hsplit,hexp,hid,rfl,hready,?_,fun n hn halive => ?_⟩
  · refine ⟨_,List.mem_append_left _ (List.mem_map_of_mem (List.mem_append_right _
      (List.mem_singleton_self w))),?_⟩
    rw [PaxosNode.detectEntry_nodeId]
    exact hid.trans hfollows.symm
  · obtain ⟨hother,m,hm,hmn⟩ := hmiddle n hn halive
    refine ⟨fun heq => hother (heq.trans hfollows),?_⟩
    rcases hlowest m hm with hleader | hnot
    · exact absurd (hmn.symm.trans hleader) hother
    · rwa [hmn] at hnot

end KiviLeaf

namespace Cluster

variable {ι : Type} [DecidableEq ι] {launch : ι → Launch} {leader heir : ι} {s t : Cluster ι}
  {history : List (Taken (Cluster ι) (Event ι))}

structure Heir (launch : ι → Launch) (leader heir : ι) : Prop where
  other : heir ≠ leader
  lowest : ∀ k, k ≠ leader → (launch heir).nodeId ≤ (launch k).nodeId

/-- No pass of node `i` has come when the last heartbeat of the leader that the node has handled
was older than the limit. -/
def Punctual (launch : ι → Launch) (leader i : ι) : List (Taken (Cluster ι) (Event ι)) → Prop
  | [] => True
  | x::history => (∀ up now promotedAt, x.event = .input i up (.detect now promotedAt) →
      ¬ now-lastHeard launch i leader history > silenceLimit) ∧ Punctual launch leader i history

structure Waiting (launch : ι → Launch) (leader i : ι) (s : Cluster ι) : Prop where
  ready : (s.leaf i).leafRole = promotionReadyReplica
  view : (s.leaf i).currentLeaderId = (launch leader).nodeId.toInt32
  alive : ∀ n ∈ (s.leaf i).localClusterNodes, n.nodeId = (launch leader).nodeId → n.isAlive = true

theorem Waiting.promoted (h : OneLeader launch leader) (hbook : FullBook launch)
    (hheir : Heir launch leader heir)
    (hrun : Run step (Cluster.launch launch) history s) (hw : Waiting launch leader heir s)
    {up : Reachability} {now promotedAt : Int64}
    (hlate : now-lastHeard launch heir leader history > silenceLimit) :
    PromotedIn ⟨s,.input heir up (.detect now promotedAt),t⟩ heir := by
  obtain ⟨n,hn,hid⟩ := List.mem_map.mp (lists_of_run hbook hrun heir leader)
  have hlast := lasting_of_run h hrun heir
  have hwatched := hlast.watched.trans (h.watched heir)
  have hexp := (expires_iff_late h hbook hrun hheir.other hn hid (hw.alive n hn hid) now).mpr hlate
  have hfollows : (s.leaf heir).currentLeaderId.toInt64 = (s.leaf heir).localClusterLeader := by
    rw [hw.view,h.intRange,hwatched]
  obtain ⟨table,hpass⟩ := KiviLeaf.promotesInPass_of_expires hlast.listedOnce hw.ready hfollows hn
    (hid.trans hwatched.symm) hexp fun m hm => by
      obtain ⟨k,hk,_⟩ := ((charted_of_run hbook.toAddressBook hrun).leaves heir).entry
        (List.mem_append_left _ hm)
      by_cases hkl : k = leader
      · exact .inl (by rw [hk,hkl,hwatched])
      · have hle := hheir.lowest k hkl
        right
        rw [hk,hlast.nodeId]
        grind
  exact ⟨up,now,promotedAt,table,rfl,hpass⟩

theorem Waiting.kept (h : OneLeader launch leader) (hbook : FullBook launch)
    (hheir : Heir launch leader heir)
    (hrun : Run step (Cluster.launch launch) history s) (hw : Waiting launch leader heir s)
    {e : Event ι} (hs : s.step e = some t)
    (hpunctual : ∀ up now promotedAt, e = .input heir up (.detect now promotedAt) →
      ¬ now-lastHeard launch heir leader history > silenceLimit) :
    Waiting launch leader heir t := by
  have hd := listedOnce_of_oneLeader h
  have hranked := ranked_of_run h hbook.toAddressBook hrun
  have hwatched := (lasting_of_run h hrun heir).watched.trans (h.watched heir)
  have hlate := fun n hn hid => expires_iff_late h hbook hrun hheir.other hn hid (hw.alive n hn hid)
  have halive := alive_step hbook hd hrun hs heir hw.alive fun up now promotedAt he n hn hid => by
    rw [← Bool.not_eq_true,hlate n hn hid now]
    exact hpunctual up now promotedAt he
  rcases hranked.turn (charted_of_run hbook.toAddressBook hrun) hs heir with
    ⟨hrole,hview⟩ | ⟨⟨up,now,promotedAt,table,he,hpass⟩,_,_⟩ | ⟨_,k,hpromoted,_,hlt⟩
  · exact ⟨hrole.trans hw.ready,hview.trans hw.view,halive⟩
  · obtain ⟨before,w,after,hsplit,hexp,hid,_,_⟩ := hpass
    have hmem : w ∈ (s.leaf heir).localClusterNodes := by
      change (s.leaf heir).localClusterNodes = _ at hsplit
      simp [hsplit]
    exact absurd ((hlate w hmem (hid.trans hwatched) now).mp hexp) (hpunctual up now promotedAt he)
  · have hle := hheir.lowest k (hranked.promoted k hpromoted).2
    grind

theorem waiting_or_promoted (h : OneLeader launch leader) (hbook : FullBook launch)
    (hheir : Heir launch leader heir)
    (hrun : Run step (Cluster.launch launch) history s) :
    (Punctual launch leader heir history → Waiting launch leader heir s) ∧
      (¬ Punctual launch leader heir history → HasPromoted history heir) := by
  induction hrun with
  | nil =>
    refine ⟨fun _ => ⟨?_,h.leaderId heir,?_⟩,fun hnot => absurd trivial hnot⟩
    · change (launch heir).leafRole = _
      rw [h.role,if_neg hheir.other]
    · exact alive_of_run h hbook Run.nil (List.forall_mem_nil _) heir
  | @snoc history s e t hrun hstep ih =>
    constructor
    · intro hpunctual
      exact (ih.1 hpunctual.2).kept h hbook hheir hrun hstep hpunctual.1
    · intro hnot
      by_cases hbefore : Punctual launch leader heir history
      · have hlate : ∃ up now promotedAt, e = .input heir up (.detect now promotedAt) ∧
            now-lastHeard launch heir leader history > silenceLimit := by
          by_contra hnone
          push Not at hnone
          exact hnot ⟨hnone,hbefore⟩
        obtain ⟨up,now,promotedAt,rfl,hlate⟩ := hlate
        exact ⟨_,List.mem_cons_self,(ih.1 hbefore).promoted h hbook hheir hrun hlate⟩
      · exact (ih.2 hbefore).cons _

/-- The heir takes writes exactly from the first pass on at which the last heartbeat of
the leader that it has handled was older than the limit. -/
theorem successor_leads_iff {ι : Type} [DecidableEq ι] {launch : ι → Launch} {leader heir : ι}
    (h : OneLeader launch leader) (hbook : FullBook launch)
    (hheir : Heir launch leader heir) {history : List (Taken (Cluster ι) (Event ι))}
    {s : Cluster ι} (hrun : Run step (Cluster.launch launch) history s) :
    acceptsPut (s.leaf heir) = true ↔ ¬ Punctual launch leader heir history := by
  obtain ⟨hwaits,hpromoted⟩ := waiting_or_promoted h hbook hheir hrun
  have hranked := ranked_of_run h hbook.toAddressBook hrun
  have hid := (lasting_of_run h hrun heir).nodeId
  constructor
  · intro haccepts hpunctual
    exact hheir.other ((acceptsPut_view h hid (hwaits hpunctual).view).mp haccepts)
  · intro hnot
    have hrole := (hranked.promoted heir (hpromoted hnot)).1
    cases hranked.standing heir with
    | leads _ view => exact (acceptsPut_view h hid view).mpr rfl
    | loyal role _ => exact absurd hrole role
    | defers k _ promoted lower =>
      have hle := hheir.lowest k (hranked.promoted k promoted).2
      grind

theorem trio_heir : Heir trio firstNode secondNode where
  other := by decide
  lowest := by decide

/-- The second node, which has heard from the third one only, looks after twenty seconds. -/
theorem successor_leads_iff_trio : ∃ history s, Run step (Cluster.launch trio) history s ∧
    acceptsPut (s.leaf secondNode) = true ∧ ¬ Punctual trio firstNode secondNode history := by
  have hend : ((Transition.exec step (Cluster.launch trio) takeover).any fun s =>
      acceptsPut (s.leaf secondNode)) = true := by
    decide +kernel
  obtain ⟨history,s,hrun,_,haccepts⟩ := Run.of_exec_any _ hend
  exact ⟨history,s,hrun,haccepts,
    (successor_leads_iff trio_oneLeader trio_fullBook trio_heir hrun).mp haccepts⟩

end Cluster
end Kivi
