import Kivi.Cluster.Election
import Kivi.Leaf.Promotions

/-! The four places where a leaf keeps who leads: the id its failure detector watches, the id
it redirects to, the descriptor it pulls from and its own role. -/
namespace Kivi

open Transition (Run Taken)

/-- A launch in the manner of the documented command lines. -/
structure Launch.Documented (a : Launch) : Prop where
  watched : a.watched = a.leaderId.toInt64
  listed : a.watched ∈ a.cluster.map PaxosNodeSharableDescriptor.nodeId
  role : a.leafRole = localLeader ↔ a.nodeId = a.leaderId.toInt64

namespace KiviLeaf

variable {s s₀ : KiviLeaf} {up : Reachability} {input : Input} {r : KiviLeaf × List Packet}
  {history : List (Taken KiviLeaf (Reachability × Input))}

/-- The four views of the leader agree. -/
structure Coherent (s : KiviLeaf) : Prop where
  watched : s.localClusterLeader = s.currentLeaderId.toInt64
  pulled : s.currentLeader.nodeId = s.currentLeaderId.toInt64
  role : s.leafRole = localLeader ↔ s.nodeId = s.currentLeaderId.toInt64

/-- Before an input: it is no pass that promotes the leaf, and no promotion notice of another
leader than the watched one. -/
def Steady (s : KiviLeaf) : Input → Prop
  | .detect now _ => ∀ table, ¬ s.PromotesInPass now table
  | .message (.localSyncSelfPromotion m) _ _ => m.leaderNodeId.toInt32.toInt64 = s.localClusterLeader ∧
      (s.Lists m.leaderNodeId → m.leaderNodeId = s.localClusterLeader)
  | _ => True

def reactStep (s : KiviLeaf) (e : Reachability × Input) : Option KiviLeaf :=
  match s.react e.1 e.2 with
  | .ok r => some r.1
  | .error _ => none

theorem reactStep_eq_some {t : KiviLeaf} {e : Reachability × Input} :
    s.reactStep e = some t ↔ ∃ packets, s.react e.1 e.2 = .ok (t,packets) := by
  unfold reactStep
  cases hr : s.react e.1 e.2 with
  | error e => simp
  | ok r =>
    constructor
    · intro h
      exact ⟨r.2,by rw [← Option.some.inj h]⟩
    · rintro ⟨packets,h⟩
      rw [Except.ok.inj h]

theorem Coherent.of_same {t : KiviLeaf} (h : s.Coherent)
    (hid : t.nodeId = s.nodeId) (hwatched : t.localClusterLeader = s.localClusterLeader)
    (hcurrent : t.currentLeaderId = s.currentLeaderId)
    (hpulled : t.currentLeader.nodeId = s.currentLeader.nodeId) (hrole : t.leafRole = s.leafRole) :
    t.Coherent := by
  refine ⟨?_,?_,?_⟩
  · rw [hwatched,hcurrent]
    exact h.watched
  · rw [hpulled,hcurrent]
    exact h.pulled
  · rw [hrole,hid,hcurrent]
    exact h.role

theorem not_coherent_promoted {t : KiviLeaf} (h : s.Coherent)
    (hready : s.leafRole = promotionReadyReplica) (hid : t.nodeId = s.nodeId)
    (hwatched : t.localClusterLeader = s.localClusterLeader) (hrole : t.leafRole = localLeader) :
    ¬ t.Coherent := by
  intro ht
  have hown := ht.role.mp hrole
  rw [hid] at hown
  have hsame : s.nodeId = s.currentLeaderId.toInt64 := by
    rw [hown,← ht.watched,hwatched,h.watched]
  have hleader := h.role.mpr hsame
  rw [hready] at hleader
  exact absurd hleader (by decide)

theorem coherent_followLeader_iff (h : s.Coherent) (leaderNodeId now : Int64) :
    (s.followLeader leaderNodeId now).Coherent ↔
      leaderNodeId.toInt32.toInt64 = s.localClusterLeader ∧
        (s.Lists leaderNodeId → leaderNodeId = s.localClusterLeader) := by
  have hpulled := followLeader_currentLeader leaderNodeId now s
  constructor
  · intro ht
    have hwatched : s.localClusterLeader = leaderNodeId.toInt32.toInt64 := ht.watched
    refine ⟨hwatched.symm,fun hlisted => ?_⟩
    rw [if_pos hlisted] at hpulled
    rw [← hpulled,hwatched]
    exact ht.pulled
  · rintro ⟨hid,hlisted⟩
    have hsame : leaderNodeId.toInt32.toInt64 = s.currentLeaderId.toInt64 := hid.trans h.watched
    refine ⟨hid.symm,?_,?_⟩
    · rw [hpulled]
      split_ifs with hlists
      · exact (hlisted hlists).trans hid.symm
      · exact h.pulled.trans hsame.symm
    · change s.leafRole = localLeader ↔ s.nodeId = leaderNodeId.toInt32.toInt64
      rw [hsame]
      exact h.role

theorem steady_of_stamp {msg : Message} {clock : Clock} {order : HashOrder}
    (h : ∀ m, msg ≠ .localSyncSelfPromotion m) : s.Steady (.message msg clock order) := by
  cases msg with
  | localSyncSelfPromotion m => exact absurd rfl (h m)
  | _ => trivial

theorem coherent_message_iff (h : s.Coherent) {msg : Message} {clock : Clock} {order : HashOrder}
    (hr : s.handleMessage up clock order msg = .ok r) :
    r.1.Coherent ↔ s.Steady (.message msg clock order) := by
  have hother : (∀ m, msg ≠ .localSyncSelfPromotion m) → r.1.Coherent →
      (r.1.Coherent ↔ s.Steady (.message msg clock order)) := fun hmsg hafter =>
    ⟨fun _ => steady_of_stamp hmsg,fun _ => hafter⟩
  rcases handleMessage_cases hr with ⟨ts,kivi,hstamp,rfl⟩ | ⟨_,rfl | ⟨req,requester,rfl,rfl⟩ |
    ⟨res,rfl,rfl⟩ | ⟨m,rfl,rfl⟩⟩
  · apply hother _ (h.of_same rfl rfl rfl rfl rfl)
    rintro m rfl
    simp [Message.stamp] at hstamp
  · cases msg with
    | localSyncSelfPromotion m =>
      have hsame : s.followLeader m.leaderNodeId clock.now = s := congrArg Prod.fst (Except.ok.inj hr)
      have hiff := coherent_followLeader_iff h m.leaderNodeId clock.now
      rwa [hsame] at hiff
    | _ => exact hother (by simp) h
  · exact hother (by simp) h
  · exact coherent_followLeader_iff h res.leaderNodeId clock.now
  · obtain ⟨hid,_,_,hwatched⟩ := PaxosNode.receiveHeartBeat_identity clock.now m s.toPaxosNode
    exact hother (by simp) (h.of_same hid hwatched rfl rfl rfl)

theorem coherent_detect_iff (h : s.Coherent) (up : Reachability) (now promotedAt : Int64) :
    (s.detectFailures up now promotedAt).1.Coherent ↔ ∀ table, ¬ s.PromotesInPass now table := by
  rcases detectFailures_spec up now promotedAt s with ⟨table,hpass,hr⟩ | ⟨hnone,hr⟩
  · have hready : s.leafRole = promotionReadyReplica := by
      obtain ⟨_,_,_,_,_,_,_,he⟩ := hpass
      exact he.ready
    have hnot : ¬ (s.detectFailures up now promotedAt).1.Coherent := by
      rw [hr]
      exact not_coherent_promoted h hready rfl rfl rfl
    exact ⟨fun hc => absurd hc hnot,fun hnone => absurd hpass (hnone table)⟩
  · have hafter : (s.detectFailures up now promotedAt).1.Coherent := by
      rw [hr]
      exact h.of_same rfl rfl rfl rfl rfl
    exact ⟨fun _ => hnone,fun _ => hafter⟩

theorem boot_currentLeader (up : Reachability) (unset : Int64) (s : KiviLeaf) :
    (s.boot up unset).1.currentLeader.nodeId =
      if s.Lists s.currentLeaderId.toInt64 then s.currentLeaderId.toInt64
      else s.currentLeader.nodeId := by
  unfold boot getCurrentLeader
  cases hfind : s.localClusterNodes.find? fun n => decide (n.nodeId = s.currentLeaderId.toInt64) with
  | none =>
    have hnot : ¬ s.Lists s.currentLeaderId.toInt64 := by
      intro hlisted
      obtain ⟨n,hn,hid⟩ := List.mem_map.mp hlisted
      exact absurd (decide_eq_true hid) (List.find?_eq_none.mp hfind n hn)
    rw [if_neg hnot]
    rfl
  | some n =>
    obtain ⟨hn,hid⟩ := find?_key hfind
    have hlisted : s.Lists s.currentLeaderId.toInt64 := List.mem_map.mpr ⟨n,hn,hid⟩
    rw [if_pos hlisted,Option.map_some]
    dsimp only
    split <;> exact hid

theorem boot_localClusterLeader (up : Reachability) (unset : Int64) (s : KiviLeaf) :
    (s.boot up unset).1.nodeId = s.nodeId ∧
      (s.boot up unset).1.localClusterLeader = s.localClusterLeader := by
  rw [(boot_cases up unset s).1]
  exact ⟨rfl,rfl⟩

/-- From a coherent state a step leads to a coherent one exactly when it is steady. -/
theorem coherent_react_iff (h : s.Coherent) (hr : s.react up input = .ok r) :
    r.1.Coherent ↔ s.Steady input := by
  have hother : r.1.Coherent → s.Steady input → (r.1.Coherent ↔ s.Steady input) :=
    fun hafter hsteady => ⟨fun _ => hsteady,fun _ => hafter⟩
  cases input with
  | heartbeat now₁ now₂ unset =>
    obtain rfl := Except.ok.inj hr
    exact hother h trivial
  | detect now promotedAt =>
    obtain rfl := Except.ok.inj hr
    exact coherent_detect_iff h up now promotedAt
  | message msg clock order => exact coherent_message_iff h hr
  | put key value now =>
    obtain ⟨⟨s',packets,response⟩,hput,hr⟩ := except_bind_eq_ok.mp hr
    obtain rfl := Except.ok.inj hr
    rcases put_cases hput with ⟨_,rfl,_,_⟩ | ⟨_,kivi,_,rfl,_⟩
    · exact hother h trivial
    · exact hother (h.of_same rfl rfl rfl rfl rfl) trivial
  | get key =>
    obtain ⟨⟨s',response⟩,hget,hr⟩ := except_bind_eq_ok.mp hr
    obtain rfl := Except.ok.inj hr
    rcases get_cases hget with ⟨rfl,_⟩ | ⟨_,_,_,_,_,rfl⟩
    · exact hother h trivial
    · exact hother (h.of_same rfl rfl rfl rfl rfl) trivial
  | boot unset =>
    obtain rfl := Except.ok.inj hr
    obtain ⟨_,hrole,hcurrent,_⟩ := boot_cases up unset s
    obtain ⟨hid,hwatched⟩ := boot_localClusterLeader up unset s
    have hpulled : (s.boot up unset).1.currentLeader.nodeId = s.currentLeader.nodeId := by
      rw [boot_currentLeader]
      split_ifs
      · exact h.pulled.symm
      · rfl
    exact hother (h.of_same hid hwatched hcurrent hpulled hrole) trivial
  | pull =>
    obtain rfl := Except.ok.inj hr
    exact hother h trivial

theorem coherent_boot {a : Launch} (h : a.Documented) (up : Reachability) (unset : Int64) :
    (a.leaf.boot up unset).1.Coherent := by
  obtain ⟨_,hrole,hcurrent,_⟩ := boot_cases up unset a.leaf
  obtain ⟨hid,hwatched⟩ := boot_localClusterLeader up unset a.leaf
  have hlists : a.leaf.Lists a.leaf.currentLeaderId.toInt64 := by
    have hids := PaxosNode.registerClusterNodes_ids a.registeredAt a.cluster
      (PaxosNode.new a.nodeId a.nodeIp a.nodePort a.isProposer)
    have htable : a.leaf.localClusterNodes.map PaxosNodeDescriptor.nodeId =
        a.cluster.map PaxosNodeSharableDescriptor.nodeId := hids
    change a.leaderId.toInt64 ∈ _
    rw [htable,← h.watched]
    exact h.listed
  have hpulled := boot_currentLeader up unset a.leaf
  rw [if_pos hlists] at hpulled
  have hnode : a.leaf.nodeId = a.nodeId := PaxosNode.registerClusterNodes_nodeId _ _ _
  refine ⟨?_,?_,?_⟩
  · rw [hwatched,hcurrent]
    exact h.watched
  · rw [hpulled,hcurrent]
  · rw [hrole,hid,hcurrent,hnode]
    exact h.role

/-- In every run of a leaf launched as documented, the four views of the leader agree after
each step exactly when no pass promotes the leaf and no notice names another leader. -/
theorem coherent_iff_steady {a : Launch} (h : a.Documented) (up : Reachability) (unset : Int64)
    (hrun : Run reactStep (a.leaf.boot up unset).1 history s) :
    (∀ x ∈ history, x.post.Coherent) ↔ ∀ x ∈ history, x.pre.Steady x.event.2 := by
  have hstart := coherent_boot h up unset
  have key : ((∀ x ∈ history, x.post.Coherent) ↔ ∀ x ∈ history, x.pre.Steady x.event.2) ∧
      ((∀ x ∈ history, x.post.Coherent) → s.Coherent) := by
    induction hrun with
    | nil => simpa using hstart
    | @snoc history s e t hrun hstep ih =>
      obtain ⟨packets,hr⟩ := reactStep_eq_some.mp hstep
      simp only [List.forall_mem_cons]
      refine ⟨?_,And.left⟩
      constructor
      · rintro ⟨hpost,hall⟩
        exact ⟨(coherent_react_iff (ih.2 hall) hr).mp hpost,ih.1.mp hall⟩
      · rintro ⟨hsteady,hall⟩
        have hbefore := ih.1.mpr hall
        exact ⟨(coherent_react_iff (ih.2 hbefore) hr).mpr hsteady,hbefore⟩
  exact key.1

/-! ### The second node of the usage comment -/

open Cluster (trio secondNode unreachable)

theorem trio_documented : (trio secondNode).Documented where
  watched := by decide
  listed := by decide
  role := by decide

def booted : KiviLeaf := ((trio secondNode).leaf.boot unreachable 0).1

theorem booted_takeover : ∃ t : KiviLeaf,
    booted.reactStep (unreachable,.detect 20000 20000) = some t ∧
      t.localClusterLeader ≠ t.currentLeaderId.toInt64 := by
  refine ⟨_,rfl,?_⟩
  decide +kernel

/-- Once promoted, it still watches the leader it replaces. -/
theorem views_diverge : ¬ ∀ a : Launch, a.Documented → ∀ up unset history s,
    Run reactStep (a.leaf.boot up unset).1 history s →
    (∀ x ∈ history, (∃ now promotedAt, x.event.2 = .detect now promotedAt) ∨
      ∃ msg clock order, x.event.2 = .message msg clock order) →
    ∀ x ∈ history, x.post.Coherent := by
  intro h
  obtain ⟨t,ht,hne⟩ := booted_takeover
  have hcoherent := h _ trio_documented unreachable 0 _ t (Run.nil.snoc ht)
    (List.forall_mem_singleton.mpr (.inl ⟨20000,20000,rfl⟩)) _ List.mem_cons_self
  exact hne hcoherent.watched

theorem coherent_iff_steady_booted : ∃ t : KiviLeaf,
    booted.reactStep (unreachable,.detect 20000 20000) = some t ∧
      (t.Coherent ↔ booted.Steady (.detect 20000 20000)) := by
  obtain ⟨t,ht,_⟩ := booted_takeover
  have hiff := coherent_iff_steady trio_documented unreachable 0 (Run.nil.snoc ht)
  simp only [List.forall_mem_singleton] at hiff
  exact ⟨t,ht,hiff⟩

end KiviLeaf
end Kivi
