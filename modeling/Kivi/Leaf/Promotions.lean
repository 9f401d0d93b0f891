import Kivi.Leaf.Machine

/-! Promotion notices handled one after another: each one overwrites the view of the leader,
whatever its timestamp says. -/
namespace Kivi

open LinkedList (Fault)

/-- A promotion notice with what the handling of it reads. -/
structure Notice where
  up : Reachability
  clock : Clock
  order : HashOrder
  msg : LocalSyncSelfPromotionMessage

namespace KiviLeaf

variable {s s' : KiviLeaf}

def Lists (id : Int64) (s : KiviLeaf) : Prop :=
  id ∈ s.localClusterNodes.map PaxosNodeDescriptor.nodeId

instance (id : Int64) (s : KiviLeaf) : Decidable (s.Lists id) :=
  inferInstanceAs (Decidable (_ ∈ _))

def handlePromotions : List Notice → KiviLeaf → Except Fault KiviLeaf
  | [], s => .ok s
  | p::ps, s => do
    let r ← s.handleMessage p.up p.clock p.order (.localSyncSelfPromotion p.msg)
    handlePromotions ps r.1

theorem followLeader_currentLeader (leaderNodeId now : Int64) (s : KiviLeaf) :
    (s.followLeader leaderNodeId now).currentLeader.nodeId =
      if s.Lists leaderNodeId then leaderNodeId else s.currentLeader.nodeId := by
  have key : ∀ (ns : List PaxosNodeDescriptor) (leader : PaxosNodeDescriptor),
      (ns.foldl (fun leader n =>
        if n.nodeId = leaderNodeId then { n with lastSeen := now, lastSync := -1 } else leader)
        leader).nodeId =
      if leaderNodeId ∈ ns.map PaxosNodeDescriptor.nodeId then leaderNodeId else leader.nodeId := by
    intro ns
    induction ns with
    | nil => exact fun _ => rfl
    | cons n ns ih =>
      intro leader
      rw [List.foldl_cons,ih]
      by_cases hn : n.nodeId = leaderNodeId
      · simp [hn]
      · simp [hn,Ne.symm hn]
  exact key s.localClusterNodes s.currentLeader

def lastLeader (ps : List Notice) : Option Int64 := ps.getLast?.map fun p => p.msg.leaderNodeId

def lastListed (ps : List Notice) (s : KiviLeaf) : Option Int64 :=
  lastLeader (ps.filter fun p => decide (s.Lists p.msg.leaderNodeId))

theorem lastLeader_cons (p : Notice) (ps : List Notice) :
    lastLeader (p::ps) = some ((lastLeader ps).getD p.msg.leaderNodeId) := by
  cases ps with
  | nil => rfl
  | cons q qs => simp [lastLeader,List.getLast?_cons]

/-- What is left of the notices is the last one. -/
theorem handlePromotions_spec (ps : List Notice) (s : KiviLeaf) :
    ∃ t, handlePromotions ps s = .ok t ∧
      t.currentLeaderId = ((lastLeader ps).map Int64.toInt32).getD s.currentLeaderId ∧
      t.currentLeader.nodeId = (lastListed ps s).getD s.currentLeader.nodeId := by
  induction ps generalizing s with
  | nil => exact ⟨s,rfl,rfl,rfl⟩
  | cons p ps ih =>
    obtain ⟨t,ht,hid,hleader⟩ := ih (s.followLeader p.msg.leaderNodeId p.clock.now)
    refine ⟨t,ht,?_,?_⟩
    · rw [hid,lastLeader_cons]
      cases lastLeader ps <;> rfl
    · rw [hleader,followLeader_currentLeader]
      have hrest : lastListed ps (s.followLeader p.msg.leaderNodeId p.clock.now) =
          lastListed ps s := rfl
      rw [hrest]
      unfold lastListed
      by_cases hlisted : s.Lists p.msg.leaderNodeId
      · rw [if_pos hlisted,List.filter_cons_of_pos (by simpa using hlisted),lastLeader_cons,
          Option.getD_some]
      · rw [if_neg hlisted,List.filter_cons_of_neg (by simpa using hlisted)]

theorem lastLeader_eq_none {ps : List Notice} : lastLeader ps = none ↔ ps = [] := by
  simp [lastLeader]

/-- Two followers with the same local table that handle the same notices, each in an order of
its own, agree on the leader exactly when the notices they handle last name the same leader,
and on its descriptor exactly when the last ones with a listed leader do. -/
theorem promotions_agree_iff (htable : s.localClusterNodes = s'.localClusterNodes)
    {ps ps' : List Notice} (hperm : (ps.map Notice.msg).Perm (ps'.map Notice.msg)) :
    ∃ t t', handlePromotions ps s = .ok t ∧ handlePromotions ps' s' = .ok t' ∧
      (ps ≠ [] → (t.currentLeaderId = t'.currentLeaderId ↔
        (lastLeader ps).map Int64.toInt32 = (lastLeader ps').map Int64.toInt32)) ∧
      ((∃ p ∈ ps, s.Lists p.msg.leaderNodeId) →
        (t.currentLeader.nodeId = t'.currentLeader.nodeId ↔
          lastListed ps s = lastListed ps' s')) := by
  obtain ⟨t,ht,hid,hleader⟩ := handlePromotions_spec ps s
  obtain ⟨t',ht',hid',hleader'⟩ := handlePromotions_spec ps' s'
  have hlists : ∀ id, s.Lists id ↔ s'.Lists id := fun id => by rw [Lists,Lists,htable]
  refine ⟨t,t',ht,ht',fun hne => ?_,fun hany => ?_⟩
  · have hne' : ps' ≠ [] := by
      rintro rfl
      rw [List.map_nil,List.perm_nil,List.map_eq_nil_iff] at hperm
      exact hne hperm
    obtain ⟨a,ha⟩ := Option.ne_none_iff_exists'.mp (mt lastLeader_eq_none.mp hne)
    obtain ⟨b,hb⟩ := Option.ne_none_iff_exists'.mp (mt lastLeader_eq_none.mp hne')
    simp [hid,hid',ha,hb]
  · have hany' : ∃ p ∈ ps', s'.Lists p.msg.leaderNodeId := by
      obtain ⟨p,hp,hlisted⟩ := hany
      obtain ⟨q,hq,hmsg⟩ := List.mem_map.mp (hperm.subset (List.mem_map_of_mem hp))
      exact ⟨q,hq,by rw [hmsg]; exact (hlists _).mp hlisted⟩
    have hsome : ∀ {ps : List Notice} {s : KiviLeaf}, (∃ p ∈ ps, s.Lists p.msg.leaderNodeId) →
        ∃ a, lastListed ps s = some a := by
      rintro ps s ⟨p,hp,hlisted⟩
      apply Option.ne_none_iff_exists'.mp
      rw [lastListed,Ne,lastLeader_eq_none,List.filter_eq_nil_iff]
      exact fun h => h p hp (decide_eq_true hlisted)
    obtain ⟨a,ha⟩ := hsome hany
    obtain ⟨b,hb⟩ := hsome hany'
    simp [hleader,hleader',ha,hb]

def follower : KiviLeaf :=
  let leaf := new [] 5003 4 promotionReadyReplica false 1 ⟨1,[],5000,0,-1,true⟩ 0
  { leaf with localClusterNodes := [⟨1,[],5000,0,-1,false⟩,⟨2,[],5001,0,-1,true⟩,
      ⟨3,[],5002,0,-1,true⟩,⟨4,[],5003,0,-1,true⟩] }

def firstNotice : Notice := ⟨fun _ _ => true,⟨30,30⟩,.stored,⟨2,10⟩⟩
def secondNotice : Notice := ⟨fun _ _ => true,⟨31,31⟩,.stored,⟨3,20⟩⟩

/-- The follower that hears of the older promotion last goes back to it. -/
theorem promotion_order_matters : ¬ ∀ (s s' : KiviLeaf) (ps ps' : List Notice),
    s.localClusterNodes = s'.localClusterNodes → (ps.map Notice.msg).Perm (ps'.map Notice.msg) →
    (ps.map fun p => p.msg.leaderNodeId).Nodup →
    (ps.map fun p => p.msg.promotionTimestamp).Nodup →
    ∃ t t', handlePromotions ps s = .ok t ∧ handlePromotions ps' s' = .ok t' ∧
      t.currentLeaderId = t'.currentLeaderId ∧
      t.currentLeader.nodeId = t'.currentLeader.nodeId := by
  intro h
  obtain ⟨t,t',ht,ht',hid,_⟩ := h follower follower [firstNotice,secondNotice]
    [secondNotice,firstNotice] rfl (List.Perm.swap _ _ _) (by decide) (by decide)
  obtain rfl := Except.ok.inj ht
  obtain rfl := Except.ok.inj ht'
  exact absurd hid (by decide)

theorem promotions_agree_iff_follower :
    ∃ t t', handlePromotions [firstNotice,secondNotice] follower = .ok t ∧
      handlePromotions [secondNotice,firstNotice] follower = .ok t' ∧
      ([firstNotice,secondNotice] ≠ [] → (t.currentLeaderId = t'.currentLeaderId ↔
        (lastLeader [firstNotice,secondNotice]).map Int64.toInt32 =
          (lastLeader [secondNotice,firstNotice]).map Int64.toInt32)) ∧
      ((∃ p ∈ [firstNotice,secondNotice], follower.Lists p.msg.leaderNodeId) →
        (t.currentLeader.nodeId = t'.currentLeader.nodeId ↔
          lastListed [firstNotice,secondNotice] follower =
            lastListed [secondNotice,firstNotice] follower)) :=
  promotions_agree_iff rfl (List.Perm.swap _ _ _)

end KiviLeaf
end Kivi
