import Kivi.Leaf.KiviLeaf

/-! What a pass of the failure detector does: the marks of the table, and the one place
where the node may take over. -/
namespace Kivi
namespace PaxosNode

variable {self watched now : Int64}

@[simp] theorem detectEntry_nodeId (n : PaxosNodeDescriptor) :
    (detectEntry self now n).nodeId = n.nodeId := by
  unfold detectEntry
  split_ifs <;> rfl

@[simp] theorem detectEntry_lastSeen (n : PaxosNodeDescriptor) :
    (detectEntry self now n).lastSeen = n.lastSeen := by
  unfold detectEntry
  split_ifs <;> rfl

/-- An entry survives a pass when it is the node itself or was alive and heard of in time. -/
theorem detectEntry_isAlive (n : PaxosNodeDescriptor) :
    (detectEntry self now n).isAlive = true ↔
      n.nodeId = self ∨ n.isAlive = true ∧ n.expired now = false := by
  unfold detectEntry
  by_cases hself : n.nodeId = self
  · simp [hself]
  · by_cases hdead : n.expired now ∧ n.isAlive
    · simp [hself,hdead]
    · by_cases hexp : n.expired now = true
      · have halive : n.isAlive = false := by simpa [hexp] using hdead
        simp [hself,hexp,halive]
      · simp [hself,hexp]

theorem isAlive_of_detectEntry {n : PaxosNodeDescriptor} (hself : n.nodeId ≠ self)
    (h : (detectEntry self now n).isAlive = true) : n.isAlive = true := by
  rcases (detectEntry_isAlive n).mp h with hid | ⟨halive,_⟩
  · exact absurd hid hself
  · exact halive

theorem expires_iff (n : PaxosNodeDescriptor) :
    expires self now n = true ↔
      n.nodeId ≠ self ∧ n.expired now = true ∧ n.isAlive = true := by
  simp [expires,and_assoc]

theorem sweepLocal_table {σ : Type} (hook : List PaxosNodeDescriptor → σ → σ)
    (done todo : List PaxosNodeDescriptor) (r : σ) :
    (sweepLocal hook self watched now done todo r).1 = done ++ todo.map (detectEntry self now) := by
  induction todo generalizing done r with
  | nil => simp [sweepLocal]
  | cons n todo ih =>
    rw [sweepLocal]
    simp only [ih,List.map_cons,List.append_assoc,List.cons_append,List.nil_append]

end PaxosNode

namespace KiviLeaf

open PaxosNode (detectEntry expires sweepLocal)

def withTable (table : List PaxosNodeDescriptor) (s : KiviLeaf) : KiviLeaf :=
  { s with localClusterNodes := table }

@[simp] theorem withTable_withTable (t u : List PaxosNodeDescriptor) (s : KiviLeaf) :
    withTable t (withTable u s) = withTable t s := rfl
@[simp] theorem withTable_nodes (t : List PaxosNodeDescriptor) (s : KiviLeaf) :
    (withTable t s).localClusterNodes = t := rfl
@[simp] theorem withTable_leafRole (t : List PaxosNodeDescriptor) (s : KiviLeaf) :
    (withTable t s).leafRole = s.leafRole := rfl
@[simp] theorem withTable_currentLeaderId (t : List PaxosNodeDescriptor) (s : KiviLeaf) :
    (withTable t s).currentLeaderId = s.currentLeaderId := rfl
@[simp] theorem withTable_nodeId (t : List PaxosNodeDescriptor) (s : KiviLeaf) :
    (withTable t s).nodeId = s.nodeId := rfl

def promoted (s : KiviLeaf) : KiviLeaf :=
  { s with currentLeaderId := s.nodeId.toInt32, leafRole := localLeader }

theorem promoted_not_ready (s : KiviLeaf) : s.promoted.leafRole ≠ promotionReadyReplica := by
  change localLeader ≠ promotionReadyReplica
  decide

/-- The conditions of `try_self_promote`: the leader is listed and neither it nor a lower id
is marked alive. -/
structure Eligible (s : KiviLeaf) : Prop where
  ready : s.leafRole = promotionReadyReplica
  listed : ∃ n ∈ s.localClusterNodes, n.nodeId = s.currentLeaderId.toInt64
  lowest : ∀ n ∈ s.localClusterNodes, n.isAlive = true →
    n.nodeId ≠ s.currentLeaderId.toInt64 ∧ ¬ n.nodeId < s.nodeId

theorem lowest_eq_iff (nodes : List PaxosNodeDescriptor) (start : Int64) :
    nodes.foldl (fun lowest n => if n.isAlive ∧ n.nodeId < lowest then n.nodeId else lowest) start =
      start ↔ ∀ n ∈ nodes, n.isAlive = true → ¬ n.nodeId < start := by
  have hle : ∀ (nodes : List PaxosNodeDescriptor) (a : Int64), nodes.foldl
      (fun lowest n => if n.isAlive ∧ n.nodeId < lowest then n.nodeId else lowest) a ≤ a := by
    intro nodes
    induction nodes with
    | nil => exact fun a => Int64.le_refl a
    | cons n ns ih =>
      intro a
      rw [List.foldl_cons]
      by_cases hlt : n.isAlive ∧ n.nodeId < a
      · have hn := ih n.nodeId
        rw [if_pos hlt]
        grind
      · rw [if_neg hlt]
        exact ih a
  induction nodes with
  | nil => simp
  | cons n ns ih =>
    rw [List.foldl_cons,List.forall_mem_cons]
    by_cases hlt : n.isAlive ∧ n.nodeId < start
    · have hn := hle ns n.nodeId
      have hne : ¬ ns.foldl (fun lowest n => if n.isAlive ∧ n.nodeId < lowest then n.nodeId
          else lowest) n.nodeId = start := by grind
      rw [if_pos hlt]
      constructor
      · exact fun h => absurd h hne
      · exact fun h => absurd hlt.2 (h.1 hlt.1)
    · rw [if_neg hlt]
      constructor
      · exact fun h => ⟨fun halive hn => hlt ⟨halive,hn⟩,ih.mp h⟩
      · exact fun h => ih.mpr h.2

theorem trySelfPromote_spec (up : Reachability) (now : Int64) (s : KiviLeaf) :
    s.Eligible ∧ trySelfPromote up now s =
        (s.promoted,(s.promoted.broadcastSelfPromotion up now).packets) ∨
      ¬ s.Eligible ∧ trySelfPromote up now s = (s,[]) := by
  by_cases hready : s.leafRole = promotionReadyReplica
  swap
  · exact .inr ⟨fun h => hready h.ready,by rw [trySelfPromote,if_pos hready]⟩
  rw [trySelfPromote,if_neg (not_not_intro hready)]
  cases hleader : s.getCurrentLeader 0 with
  | none =>
    refine .inr ⟨fun h => ?_,rfl⟩
    obtain ⟨n,hn,hid⟩ := h.listed
    simp only [getCurrentLeader,Option.map_eq_none_iff,List.find?_eq_none] at hleader
    exact hleader n hn (decide_eq_true hid)
  | some leader =>
    have hlisted : ∃ n ∈ s.localClusterNodes, n.nodeId = s.currentLeaderId.toInt64 ∧
        leader.nodeId = n.nodeId := by
      simp only [getCurrentLeader,Option.map_eq_some_iff] at hleader
      obtain ⟨n,hn,rfl⟩ := hleader
      obtain ⟨hmem,hid⟩ := find?_key hn
      exact ⟨n,hmem,hid,rfl⟩
    obtain ⟨m,hm,hid,hleaderId⟩ := hlisted
    by_cases hany : (s.localClusterNodes.any fun n =>
        decide (n.nodeId = leader.nodeId) && n.isAlive) = true
    · refine .inr ⟨fun h => ?_,if_pos hany⟩
      obtain ⟨n,hn,hboth⟩ := List.any_eq_true.mp hany
      simp only [Bool.and_eq_true,decide_eq_true_eq] at hboth
      exact (h.lowest n hn hboth.2).1 (hboth.1.trans (hleaderId.trans hid))
    · have hdead : ∀ n ∈ s.localClusterNodes, n.isAlive = true →
          n.nodeId ≠ s.currentLeaderId.toInt64 := by
        intro n hn halive he
        refine hany (List.any_eq_true.mpr ⟨n,hn,?_⟩)
        simp [halive,he,hleaderId,hid]
      by_cases hlow : s.lowestId = s.nodeId
      · have hlowest := (lowest_eq_iff s.localClusterNodes s.nodeId).mp hlow
        refine .inl ⟨⟨hready,⟨m,hm,hid⟩,fun n hn halive => ⟨hdead n hn halive,hlowest n hn halive⟩⟩,?_⟩
        simp only [if_neg hany,if_pos hlow,promoted]
      · refine .inr ⟨fun h => hlow ?_,by simp only [if_neg hany,if_neg hlow]⟩
        exact (lowest_eq_iff s.localClusterNodes s.nodeId).mpr fun n hn halive =>
          (h.lowest n hn halive).2

theorem onLeaderFailureDetected_spec (up : Reachability) (promotedAt : Int64)
    (table : List PaxosNodeDescriptor) (r : KiviLeaf × List Packet) :
    (r.1.withTable table).Eligible ∧ onLeaderFailureDetected up promotedAt table r =
        ((r.1.withTable table).promoted,r.2 ++
          ((r.1.withTable table).promoted.broadcastSelfPromotion up promotedAt).packets) ∨
      ¬ (r.1.withTable table).Eligible ∧
        onLeaderFailureDetected up promotedAt table r = (r.1.withTable table,r.2) := by
  have hdef : onLeaderFailureDetected up promotedAt table r =
      ((trySelfPromote up promotedAt (r.1.withTable table)).1,
        r.2 ++ (trySelfPromote up promotedAt (r.1.withTable table)).2) := rfl
  rcases trySelfPromote_spec up promotedAt (r.1.withTable table) with ⟨he,ht⟩ | ⟨he,ht⟩
  · exact .inl ⟨he,by rw [hdef,ht]⟩
  · exact .inr ⟨he,by rw [hdef,ht,List.append_nil]⟩

section Sweep

variable (up : Reachability) (self watched now promotedAt : Int64)

theorem sweepLocal_of_not_ready (done todo : List PaxosNodeDescriptor)
    (r : KiviLeaf × List Packet) (hrole : r.1.leafRole ≠ promotionReadyReplica) :
    let r' := (sweepLocal (onLeaderFailureDetected up promotedAt) self watched now done todo r).2
    (∀ t, r'.1.withTable t = r.1.withTable t) ∧ r'.2 = r.2 := by
  induction todo generalizing done r with
  | nil => exact ⟨fun _ => rfl,rfl⟩
  | cons n todo ih =>
    rw [sweepLocal]
    by_cases hfire : expires self now n ∧ n.nodeId = watched
    · rcases onLeaderFailureDetected_spec up promotedAt (done ++ detectEntry self now n :: todo) r
        with ⟨he,_⟩ | ⟨_,hr⟩
      · exact absurd he.ready hrole
      · have hrest := ih (done ++ [detectEntry self now n])
          (r.1.withTable (done ++ detectEntry self now n :: todo),r.2) hrole
        simp only [if_pos hfire,hr]
        exact hrest
    · simp only [if_neg hfire]
      exact ih _ r hrole

/-- What the rest of a sweep, with the marked entries `done` behind it, makes of a leaf and its
packets: it promotes the leaf at the first entry where the hook runs and the conditions hold,
or leaves it as it is when there is none. -/
def SweepOutcome (done todo : List PaxosNodeDescriptor) (r r' : KiviLeaf × List Packet) : Prop :=
  (∃ before w after, todo = before ++ w :: after ∧ expires self now w = true ∧
    w.nodeId = watched ∧
    ∃ table, table = done ++ (before ++ [w]).map (detectEntry self now) ++ after ∧
      (r.1.withTable table).Eligible ∧
      (∀ t, r'.1.withTable t = r.1.promoted.withTable t) ∧ r'.2 = r.2 ++
        ((r.1.withTable table).promoted.broadcastSelfPromotion up promotedAt).packets) ∨
  (∀ before w after, todo = before ++ w :: after → expires self now w = true →
    w.nodeId = watched →
    ¬ (r.1.withTable (done ++ (before ++ [w]).map (detectEntry self now) ++ after)).Eligible) ∧
    (∀ t, r'.1.withTable t = r.1.withTable t) ∧ r'.2 = r.2

variable {up self watched now promotedAt} in
theorem SweepOutcome.cons {done todo : List PaxosNodeDescriptor} {n : PaxosNodeDescriptor}
    {r r₁ r' : KiviLeaf × List Packet}
    (h : SweepOutcome up self watched now promotedAt (done ++ [detectEntry self now n]) todo r₁ r')
    (hleaf₁ : ∀ t, r₁.1.withTable t = r.1.withTable t) (hsent₁ : r₁.2 = r.2)
    (hnot : expires self now n = true → n.nodeId = watched →
      ¬ (r.1.withTable (done ++ detectEntry self now n :: todo)).Eligible) :
    SweepOutcome up self watched now promotedAt done (n::todo) r r' := by
  have hassoc : ∀ (before : List PaxosNodeDescriptor) w after,
      done ++ [detectEntry self now n] ++ (before ++ [w]).map (detectEntry self now) ++ after =
        done ++ (n::before ++ [w]).map (detectEntry self now) ++ after := by
    intro before w after
    simp
  rcases h with ⟨before,w,after,hsplit,hexp,hw,table,htable,hel,hleaf,hsent⟩ |
    ⟨hnone,hleaf,hsent⟩
  · rw [hleaf₁] at hel hsent
    have hpromoted : ∀ t, r₁.1.promoted.withTable t = r.1.promoted.withTable t := fun t =>
      congrArg promoted (hleaf₁ t)
    exact .inl ⟨n::before,w,after,by rw [hsplit]; rfl,hexp,hw,table,
      htable.trans (hassoc before w after),hel,fun t => (hleaf t).trans (hpromoted t),
      by rw [hsent,hsent₁]⟩
  · refine .inr ⟨fun before w after hsplit hexp hw => ?_,fun t => (hleaf t).trans (hleaf₁ t),
      hsent.trans hsent₁⟩
    cases before with
    | nil =>
      obtain ⟨rfl,rfl⟩ := List.cons.inj hsplit
      have hn := hnot hexp hw
      simpa using hn
    | cons m before =>
      obtain ⟨rfl,htail⟩ := List.cons.inj hsplit
      have hn := hnone before w after htail hexp hw
      rwa [hassoc,hleaf₁] at hn

theorem sweepLocal_spec (done todo : List PaxosNodeDescriptor) (r : KiviLeaf × List Packet) :
    SweepOutcome up self watched now promotedAt done todo r
      (sweepLocal (onLeaderFailureDetected up promotedAt) self watched now done todo r).2 := by
  induction todo generalizing done r with
  | nil =>
    refine .inr ⟨fun before w after h => ?_,fun _ => rfl,rfl⟩
    simp at h
  | cons n todo ih =>
    rw [sweepLocal]
    by_cases hfire : expires self now n ∧ n.nodeId = watched
    · rcases onLeaderFailureDetected_spec up promotedAt (done ++ detectEntry self now n :: todo) r
        with ⟨he,hr⟩ | ⟨he,hr⟩
      · have hrest := sweepLocal_of_not_ready up self watched now promotedAt
          (done ++ [detectEntry self now n]) todo
          (onLeaderFailureDetected up promotedAt (done ++ detectEntry self now n :: todo) r)
          (by rw [hr]; exact promoted_not_ready _)
        simp only [if_pos hfire]
        refine .inl ⟨[],n,todo,rfl,hfire.1,hfire.2,done ++ detectEntry self now n :: todo,
          by simp,he,fun t => ?_,?_⟩
        · rw [hrest.1 t,hr]
          rfl
        · rw [hrest.2,hr]
      · have hrest := ih (done ++ [detectEntry self now n])
          (r.1.withTable (done ++ detectEntry self now n :: todo),r.2)
        simp only [if_pos hfire,hr]
        exact hrest.cons (fun _ => rfl) rfl fun _ _ => he
    · have hrest := ih (done ++ [detectEntry self now n]) r
      simp only [if_neg hfire]
      exact hrest.cons (fun _ => rfl) rfl fun hexp hw => absurd ⟨hexp,hw⟩ hfire

end Sweep

/-- The pass at `now` makes the leaf take over: somewhere in the sweep the watched leader is
marked dead, and with the table as it stands there the conditions of the election hold. -/
def PromotesInPass (now : Int64) (s : KiviLeaf) (table : List PaxosNodeDescriptor) : Prop :=
  ∃ before w after, s.localClusterNodes = before ++ w :: after ∧
    expires s.nodeId now w = true ∧ w.nodeId = s.localClusterLeader ∧
    table = (before ++ [w]).map (detectEntry s.nodeId now) ++ after ∧ (s.withTable table).Eligible

/-- A pass marks the tables and changes nothing else, except that it may promote the leaf,
which then tells the entries alive at that moment. -/
theorem detectFailures_spec (up : Reachability) (now promotedAt : Int64) (s : KiviLeaf) :
    let marked := { s with
      clusterNodes := s.clusterNodes.map (detectEntry s.nodeId now)
      localClusterNodes := s.localClusterNodes.map (detectEntry s.nodeId now) }
    (∃ table, s.PromotesInPass now table ∧ s.detectFailures up now promotedAt =
        (marked.promoted,
          ((s.withTable table).promoted.broadcastSelfPromotion up promotedAt).packets)) ∨
      (∀ table, ¬ s.PromotesInPass now table) ∧
        s.detectFailures up now promotedAt = (marked,[]) := by
  let s₁ : KiviLeaf := { s with clusterNodes := s.clusterNodes.map (detectEntry s.nodeId now) }
  have htable : (sweepLocal (onLeaderFailureDetected up promotedAt) s.nodeId s.localClusterLeader
      now [] s.localClusterNodes (s₁,[])).1 =
        [] ++ s.localClusterNodes.map (detectEntry s.nodeId now) :=
    PaxosNode.sweepLocal_table _ _ _ _
  have hspec := sweepLocal_spec up s.nodeId s.localClusterLeader now promotedAt []
    s.localClusterNodes (s₁,[])
  have hdef : s.detectFailures up now promotedAt =
      ((sweepLocal (onLeaderFailureDetected up promotedAt) s.nodeId s.localClusterLeader now []
          s.localClusterNodes (s₁,[])).2.1.withTable
        (s.localClusterNodes.map (detectEntry s.nodeId now)),
        (sweepLocal (onLeaderFailureDetected up promotedAt) s.nodeId s.localClusterLeader now []
          s.localClusterNodes (s₁,[])).2.2) := by
    rw [← List.nil_append (s.localClusterNodes.map _),← htable]
    rfl
  have helig : ∀ table, (s₁.withTable table).Eligible ↔ (s.withTable table).Eligible := fun table =>
    ⟨fun h => ⟨h.ready,h.listed,h.lowest⟩,fun h => ⟨h.ready,h.listed,h.lowest⟩⟩
  rcases hspec with ⟨before,w,after,hsplit,hexp,hw,table,ht,he,hleaf,hsent⟩ | ⟨hnone,hleaf,hsent⟩
  · refine .inl ⟨table,⟨before,w,after,hsplit,hexp,hw,ht,(helig table).mp he⟩,?_⟩
    rw [hdef,hleaf,hsent]
    rfl
  · refine .inr ⟨?_,?_⟩
    · intro table h
      obtain ⟨before,w,after,hsplit,hexp,hw,rfl,he⟩ := h
      exact hnone before w after hsplit hexp hw ((helig _).mpr he)
    · rw [hdef,hleaf,hsent]
      rfl

end KiviLeaf
end Kivi
