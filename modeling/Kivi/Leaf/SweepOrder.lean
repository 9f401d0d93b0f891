import Kivi.Leaf.Detection
import Kivi.Leaf.Machine

/-! Whether the outcome of a pass depends on the order of the table. The election runs in the
middle of the sweep, when the entries behind the leader still carry their old marks. -/
namespace Kivi
namespace KiviLeaf

open PaxosNode (detectEntry expires)

variable {s : KiviLeaf} {now promotedAt : Int64} {up : Reachability}
  {nodes before after ms : List PaxosNodeDescriptor} {n w : PaxosNodeDescriptor}

def marked (now : Int64) (s : KiviLeaf) : KiviLeaf :=
  { s with
    clusterNodes := s.clusterNodes.map (detectEntry s.nodeId now)
    localClusterNodes := s.localClusterNodes.map (detectEntry s.nodeId now) }

/-- The pass as it would be with the election at its end: mark every expired entry dead and
then, if the watched leader was among them, try to take over once. -/
def markThenElect (up : Reachability) (now promotedAt : Int64) (s : KiviLeaf) :
    KiviLeaf × List Packet :=
  if ∃ w ∈ s.localClusterNodes, expires s.nodeId now w = true ∧ w.nodeId = s.localClusterLeader
  then trySelfPromote up promotedAt (s.marked now) else (s.marked now,[])

/-- Every id is listed once, and the current leader is listed and watched. -/
structure Watching (s : KiviLeaf) : Prop where
  distinct : (s.localClusterNodes.map PaxosNodeDescriptor.nodeId).Nodup
  watched : s.localClusterLeader = s.currentLeaderId.toInt64
  listed : ∃ n ∈ s.localClusterNodes, n.nodeId = s.localClusterLeader

/-- The same entries, the same role and leader, and promotions sent to the same nodes. -/
structure SameOutcome (r r' : KiviLeaf × List Packet) : Prop where
  table : r.1.localClusterNodes.Perm r'.1.localClusterNodes
  leafRole : r.1.leafRole = r'.1.leafRole
  currentLeaderId : r.1.currentLeaderId = r'.1.currentLeaderId
  packets : r.2.Perm r'.2

namespace SameOutcome

variable {r r' r'' : KiviLeaf × List Packet}

theorem symm (h : SameOutcome r r') : SameOutcome r' r :=
  ⟨h.table.symm,h.leafRole.symm,h.currentLeaderId.symm,h.packets.symm⟩

theorem trans (h : SameOutcome r r') (h' : SameOutcome r' r'') : SameOutcome r r'' :=
  ⟨h.table.trans h'.table,h.leafRole.trans h'.leafRole,
    h.currentLeaderId.trans h'.currentLeaderId,h.packets.trans h'.packets⟩

end SameOutcome

/-- One pass has the same outcome for every order of the table. -/
def OrderFree (now : Int64) (s : KiviLeaf) : Prop :=
  ∀ nodes, nodes.Perm s.localClusterNodes → ∀ up promotedAt,
    SameOutcome ((s.withTable nodes).detectFailures up now promotedAt)
      (s.detectFailures up now promotedAt)

/-- In every order of the table the election might as well come after the marks. -/
def ElectsAfterMarking (now : Int64) (s : KiviLeaf) : Prop :=
  ∀ nodes, nodes.Perm s.localClusterNodes → ∀ up promotedAt,
    (s.withTable nodes).detectFailures up now promotedAt =
      (s.withTable nodes).markThenElect up now promotedAt

/-- An entry of lower id is alive and was heard of in time. -/
def LowerStays (now : Int64) (s : KiviLeaf) : Prop :=
  ∃ n ∈ s.localClusterNodes, n.nodeId < s.nodeId ∧ n.isAlive = true ∧ n.expired now = false

/-- When the leader of a ready replica expires, then it expires alone, or an entry of lower id
stays alive. -/
def Settled (now : Int64) (s : KiviLeaf) : Prop :=
  s.leafRole = promotionReadyReplica →
  (∃ w ∈ s.localClusterNodes, expires s.nodeId now w = true ∧ w.nodeId = s.localClusterLeader) →
    (∀ n ∈ s.localClusterNodes, expires s.nodeId now n = true → n.nodeId = s.localClusterLeader) ∨
    LowerStays now s

/-! ### The entries a promotion is sent to -/

def follows (self : Int64) (n : PaxosNodeDescriptor) : Bool :=
  decide (n.nodeId ≠ self) && n.isAlive

theorem follows_detectEntry (self now : Int64) (n : PaxosNodeDescriptor) :
    follows self (detectEntry self now n) = (follows self n && !expires self now n) := by
  unfold follows expires detectEntry
  by_cases hself : n.nodeId = self
  · simp [hself]
  · by_cases hdead : n.expired now ∧ n.isAlive
    · simp [hself,hdead]
    · cases halive : n.isAlive <;> simp_all

theorem length_follows (self now : Int64) (ms : List PaxosNodeDescriptor) :
    ((ms.map (detectEntry self now)).filter (follows self)).length + ms.countP (expires self now) =
      (ms.filter (follows self)).length := by
  have hmarked : ((ms.map (detectEntry self now)).filter (follows self)).length =
      ms.countP fun n => follows self n && !expires self now n := by
    rw [← List.countP_eq_length_filter,List.countP_map]
    congr 1
    funext n
    exact follows_detectEntry self now n
  have hexpiring : ms.countP (expires self now) =
      ms.countP fun n => follows self n && expires self now n := by
    congr 1
    funext n
    cases he : expires self now n with
    | false => simp
    | true =>
      have hall := (PaxosNode.expires_iff n).mp he
      simp [follows,hall.1,hall.2.2]
  rw [hmarked,hexpiring,← List.countP_eq_length_filter,
    List.countP_eq_countP_filter_add ms (follows self) (expires self now),List.countP_filter,
    List.countP_filter,Nat.add_comm]

theorem filter_follows (h : ∀ m ∈ ms, expires s.nodeId now m = false) :
    (ms.map (detectEntry s.nodeId now)).filter (follows s.nodeId) = ms.filter (follows s.nodeId) := by
  induction ms with
  | nil => rfl
  | cons m ms ih =>
    have hrest := ih fun i hi => h i (List.mem_cons_of_mem _ hi)
    have hm := h m List.mem_cons_self
    have hfollows := follows_detectEntry s.nodeId now m
    rw [hm,Bool.not_false,Bool.and_true] at hfollows
    rw [List.map_cons]
    by_cases hself : m.nodeId = s.nodeId
    · have hown : follows s.nodeId m = false := by simp [follows,hself]
      rw [List.filter_cons_of_neg (by simp [hfollows,hown]),List.filter_cons_of_neg (by simp [hown]),
        hrest]
    · have hsame : detectEntry s.nodeId now m = m := by
        have halive : ¬ (m.expired now = true ∧ m.isAlive = true) := fun hdead => by
          rw [(PaxosNode.expires_iff m).mpr ⟨hself,hdead⟩] at hm
          cases hm
        rw [detectEntry,if_neg hself,if_neg halive]
      rw [hsame,List.filter_cons,List.filter_cons,hrest]

theorem promotion_packets (up : Reachability) (promotedAt : Int64)
    (table : List PaxosNodeDescriptor) (s : KiviLeaf) :
    ((s.withTable table).promoted.broadcastSelfPromotion up promotedAt).packets =
      ((table.filter (follows s.nodeId)).filter fun n => up n.nodeIp n.nodePort).map
        fun n => ⟨n.nodeIp,n.nodePort,.localSyncSelfPromotion ⟨s.nodeId,promotedAt⟩⟩ := by
  obtain ⟨j,_,hser,_⟩ := Message.fromJson_serialize .reference
    (m:=.localSyncSelfPromotion ⟨s.nodeId,promotedAt⟩) trivial
  have hsent := PaxosNode.sendAll_of_ok hser up (table.filter (follows s.nodeId))
  exact congrArg Sending.packets hsent

/-! ### One order of the table -/

def tableAt (now : Int64) (s : KiviLeaf) (before : List PaxosNodeDescriptor)
    (w : PaxosNodeDescriptor) (after : List PaxosNodeDescriptor) : List PaxosNodeDescriptor :=
  (before ++ [w]).map (detectEntry s.nodeId now) ++ after

theorem id_ne_of_lt {a b : Int64} (h : a < b) : a ≠ b := by
  rintro rfl
  exact Int64.lt_irrefl h

theorem tableAt_ids (h : s.localClusterNodes = before ++ w :: after) :
    (tableAt now s before w after).map PaxosNodeDescriptor.nodeId =
      s.localClusterNodes.map PaxosNodeDescriptor.nodeId := by
  simp [tableAt,h,Function.comp_def]

theorem isAlive_of_expires (h : expires s.nodeId now w = true) :
    (detectEntry s.nodeId now w).isAlive = false := by
  have hfollows := follows_detectEntry s.nodeId now w
  have hself := ((PaxosNode.expires_iff w).mp h).1
  simpa [follows,h,hself] using hfollows

theorem recipients_of_alone (hsplit : s.localClusterNodes = before ++ w :: after)
    (halone : ∀ n ∈ after, expires s.nodeId now n = false) :
    (s.localClusterNodes.map (detectEntry s.nodeId now)).filter (follows s.nodeId) =
      (tableAt now s before w after).filter (follows s.nodeId) := by
  rw [hsplit,List.append_cons,List.map_append,List.filter_append,filter_follows halone,
    ← List.filter_append]
  rfl

theorem length_recipients_lt (hexp : expires s.nodeId now w = true) {rest : List PaxosNodeDescriptor}
    (hn : n ∈ rest) (hnexp : expires s.nodeId now n = true) :
    ((tableAt now s rest w []).filter (follows s.nodeId)).length <
      ((tableAt now s [] w rest).filter (follows s.nodeId)).length := by
  have hleader : follows s.nodeId (detectEntry s.nodeId now w) = false := by
    rw [follows_detectEntry,hexp,Bool.not_true,Bool.and_false]
  have hfront : (tableAt now s [] w rest).filter (follows s.nodeId) =
      rest.filter (follows s.nodeId) := List.filter_cons_of_neg (by simp [hleader])
  have hback : (tableAt now s rest w []).filter (follows s.nodeId) =
      (rest.map (detectEntry s.nodeId now)).filter (follows s.nodeId) := by
    simp [tableAt,hleader]
  have hcount := length_follows s.nodeId now rest
  have hexpiring : 0 < rest.countP (expires s.nodeId now) :=
    List.countP_pos_iff.mpr ⟨n,hn,hnexp⟩
  rw [hfront,hback]
  omega

theorem lower_isAlive (h : n.nodeId < s.nodeId) :
    (detectEntry s.nodeId now n).isAlive = true ↔ n.isAlive = true ∧ n.expired now = false := by
  rw [PaxosNode.detectEntry_isAlive]
  exact or_iff_right (id_ne_of_lt h)

namespace Watching

theorem withTable (h : s.Watching) (hp : nodes.Perm s.localClusterNodes) :
    (s.withTable nodes).Watching where
  distinct := (hp.map _).nodup_iff.mpr h.distinct
  watched := h.watched
  listed := by
    obtain ⟨n,hn,hid⟩ := h.listed
    exact ⟨n,hp.mem_iff.mpr hn,hid⟩

theorem others_ne (h : s.Watching) (hsplit : s.localClusterNodes = before ++ w :: after) :
    ∀ n ∈ before ++ after, n.nodeId ≠ w.nodeId := by
  have hd := h.distinct
  rw [hsplit,List.map_append,List.map_cons,List.nodup_middle,List.nodup_cons,← List.map_append]
    at hd
  exact fun n hn hid => hd.1 (hid ▸ List.mem_map_of_mem hn)

theorem eligible_iff (h : s.Watching) {table : List PaxosNodeDescriptor}
    (hids : table.map PaxosNodeDescriptor.nodeId =
      s.localClusterNodes.map PaxosNodeDescriptor.nodeId)
    (hdead : ∃ d ∈ table, d.nodeId = s.localClusterLeader ∧ d.isAlive = false) :
    (s.withTable table).Eligible ↔ s.leafRole = promotionReadyReplica ∧
      ∀ n ∈ table, n.isAlive = true → ¬ n.nodeId < s.nodeId := by
  obtain ⟨d,hd,hid,halive⟩ := hdead
  constructor
  · exact fun he => ⟨he.ready,fun n hn hn' => (he.lowest n hn hn').2⟩
  · rintro ⟨hready,hlower⟩
    refine ⟨hready,⟨d,hd,hid.trans h.watched⟩,fun n hn hn' => ⟨fun hleader => ?_,hlower n hn hn'⟩⟩
    have hnd : n = d := List.inj_on_of_nodup_map (hids ▸ h.distinct) hn hd
      (hleader.trans (hid.trans h.watched).symm)
    rw [hnd,halive] at hn'
    cases hn'

/-- The sweep elects at the entry of the leader and nowhere else. -/
theorem promotesInPass_iff (h : s.Watching) (hsplit : s.localClusterNodes = before ++ w :: after)
    (hexp : expires s.nodeId now w = true) (hw : w.nodeId = s.localClusterLeader)
    (table : List PaxosNodeDescriptor) : s.PromotesInPass now table ↔
      table = tableAt now s before w after ∧ (s.withTable table).Eligible := by
  constructor
  · rintro ⟨before',w',after',hsplit',_,hw',rfl,he⟩
    have hnot : w' ∉ before ++ after := fun hmem =>
      h.others_ne hsplit w' hmem (hw'.trans hw.symm)
    rw [List.mem_append,not_or] at hnot
    obtain ⟨rfl,rfl,rfl⟩ := (List.append_cons_inj_of_notMem hnot.1 hnot.2).mp
      (hsplit.symm.trans hsplit')
    exact ⟨rfl,he⟩
  · rintro ⟨rfl,he⟩
    exact ⟨before,w,after,hsplit,hexp,hw,rfl,he⟩

theorem detectFailures_eq (h : s.Watching) (hsplit : s.localClusterNodes = before ++ w :: after)
    (hexp : expires s.nodeId now w = true) (hw : w.nodeId = s.localClusterLeader)
    (up : Reachability) (promotedAt : Int64) :
    (s.withTable (tableAt now s before w after)).Eligible ∧
        s.detectFailures up now promotedAt = ((s.marked now).promoted,((s.withTable
          (tableAt now s before w after)).promoted.broadcastSelfPromotion up promotedAt).packets) ∨
      ¬ (s.withTable (tableAt now s before w after)).Eligible ∧
        s.detectFailures up now promotedAt = (s.marked now,[]) := by
  have hiff := h.promotesInPass_iff hsplit hexp hw
  rcases detectFailures_spec up now promotedAt s with ⟨table,hpass,hrun⟩ | ⟨hnone,hrun⟩
  · obtain ⟨rfl,he⟩ := (hiff table).mp hpass
    exact .inl ⟨he,hrun⟩
  · exact .inr ⟨fun he => hnone _ ((hiff _).mpr ⟨rfl,he⟩),hrun⟩

theorem eligible_tableAt (h : s.Watching) (hsplit : s.localClusterNodes = before ++ w :: after)
    (hexp : expires s.nodeId now w = true) (hw : w.nodeId = s.localClusterLeader) :
    (s.withTable (tableAt now s before w after)).Eligible ↔ s.leafRole = promotionReadyReplica ∧
      ∀ n ∈ tableAt now s before w after, n.isAlive = true → ¬ n.nodeId < s.nodeId := by
  apply h.eligible_iff (tableAt_ids hsplit)
  exact ⟨detectEntry s.nodeId now w,by simp [tableAt],by simpa using hw,isAlive_of_expires hexp⟩

theorem eligible_marked (h : s.Watching) (hmem : w ∈ s.localClusterNodes)
    (hexp : expires s.nodeId now w = true) (hw : w.nodeId = s.localClusterLeader) :
    (s.marked now).Eligible ↔ s.leafRole = promotionReadyReplica ∧ ¬ LowerStays now s := by
  have htable : (s.marked now).Eligible ↔
      (s.withTable (s.localClusterNodes.map (detectEntry s.nodeId now))).Eligible :=
    ⟨fun he => ⟨he.ready,he.listed,he.lowest⟩,fun he => ⟨he.ready,he.listed,he.lowest⟩⟩
  rw [htable,h.eligible_iff (by simp [Function.comp_def]) ⟨detectEntry s.nodeId now w,
    List.mem_map_of_mem hmem,by simpa using hw,isAlive_of_expires hexp⟩]
  refine and_congr_right fun _ => ?_
  constructor
  · rintro hall ⟨n,hn,hlt,halive⟩
    exact hall _ (List.mem_map_of_mem hn) ((lower_isAlive hlt).mpr halive) (by simpa using hlt)
  · intro hnone m hm hm' hlt
    obtain ⟨n,hn,rfl⟩ := List.mem_map.mp hm
    rw [PaxosNode.detectEntry_nodeId] at hlt
    exact hnone ⟨n,hn,hlt,(lower_isAlive hlt).mp hm'⟩

theorem not_eligible_of_stays (h : s.Watching)
    (hsplit : s.localClusterNodes = before ++ w :: after)
    (hexp : expires s.nodeId now w = true) (hw : w.nodeId = s.localClusterLeader)
    (hstays : LowerStays now s) : ¬ (s.withTable (tableAt now s before w after)).Eligible := by
  obtain ⟨n,hn,hlt,halive⟩ := hstays
  rw [h.eligible_tableAt hsplit hexp hw]
  rintro ⟨_,hall⟩
  have hmarked : (detectEntry s.nodeId now n).isAlive = true := (lower_isAlive hlt).mpr halive
  rw [hsplit,List.append_cons,List.mem_append] at hn
  rcases hn with hn | hn
  · exact hall _ (List.mem_append_left _ (List.mem_map_of_mem hn)) hmarked (by simpa using hlt)
  · exact hall n (List.mem_append_right _ hn) halive.1 hlt

theorem eligible_of_alone (h : s.Watching)
    (hsplit : s.localClusterNodes = before ++ w :: after)
    (hexp : expires s.nodeId now w = true) (hw : w.nodeId = s.localClusterLeader)
    (hready : s.leafRole = promotionReadyReplica) (hnone : ¬ LowerStays now s)
    (halone : ∀ n ∈ after, expires s.nodeId now n = false) :
    (s.withTable (tableAt now s before w after)).Eligible := by
  rw [h.eligible_tableAt hsplit hexp hw]
  refine ⟨hready,fun n hn halive hlt => ?_⟩
  rcases List.mem_append.mp hn with hn | hn
  · obtain ⟨m,hm,rfl⟩ := List.mem_map.mp hn
    rw [PaxosNode.detectEntry_nodeId] at hlt
    have hmem : m ∈ s.localClusterNodes := by
      rw [hsplit,List.append_cons]
      exact List.mem_append_left _ hm
    exact hnone ⟨m,hmem,hlt,(lower_isAlive hlt).mp halive⟩
  · have hstays : n.expired now = false := by
      have hnot := halone n hn
      by_contra hexpired
      rw [(PaxosNode.expires_iff n).mpr ⟨id_ne_of_lt hlt,by simpa using hexpired,halive⟩] at hnot
      cases hnot
    have hmem : n ∈ s.localClusterNodes := by rw [hsplit]; simp [hn]
    exact hnone ⟨n,hmem,hlt,halive,hstays⟩

theorem detectFailures_eq_markThenElect (h : s.Watching) (hsettled : Settled now s)
    (up : Reachability) (promotedAt : Int64) :
    s.detectFailures up now promotedAt = s.markThenElect up now promotedAt := by
  by_cases hfires : ∃ w ∈ s.localClusterNodes,
      expires s.nodeId now w = true ∧ w.nodeId = s.localClusterLeader
  swap
  · -- the leader does not expire, so the hook does not run
    rw [markThenElect,if_neg hfires]
    rcases detectFailures_spec up now promotedAt s with ⟨table,hpass,_⟩ | ⟨_,hrun⟩
    · obtain ⟨before,w,after,hsplit,hexp,hw,_⟩ := hpass
      exact (hfires ⟨w,by rw [hsplit]; simp,hexp,hw⟩).elim
    · exact hrun
  rw [markThenElect,if_pos hfires]
  obtain ⟨w,hmem,hexp,hw⟩ := hfires
  obtain ⟨before,after,hsplit⟩ := List.append_of_mem hmem
  have hend := h.eligible_marked hmem hexp hw
  have hpass := h.detectFailures_eq hsplit hexp hw up promotedAt
  by_cases helect : s.leafRole = promotionReadyReplica ∧ ¬ LowerStays now s
  · obtain ⟨hready,hnone⟩ := helect
    have hexpiring := (hsettled hready ⟨w,hmem,hexp,hw⟩).resolve_right hnone
    have halone : ∀ n ∈ after, expires s.nodeId now n = false := by
      intro n hn
      by_contra hexpires
      have hleader := hexpiring n (by rw [hsplit]; simp [hn]) (by simpa using hexpires)
      exact h.others_ne hsplit n (List.mem_append_right _ hn) (hleader.trans hw.symm)
    have he := h.eligible_of_alone hsplit hexp hw hready hnone halone
    have hrun := (hpass.resolve_right fun hnot => hnot.1 he).2
    have hpromote := ((trySelfPromote_spec up promotedAt (s.marked now)).resolve_right
      fun hnot => hnot.1 (hend.mpr ⟨hready,hnone⟩)).2
    have hsent : ((s.marked now).promoted.broadcastSelfPromotion up promotedAt).packets =
        ((s.withTable (tableAt now s before w after)).promoted.broadcastSelfPromotion up
          promotedAt).packets := by
      rw [promotion_packets,← recipients_of_alone hsplit halone]
      exact promotion_packets up promotedAt _ (s.marked now)
    rw [hrun,hpromote,hsent]
  · have hnot : ¬ (s.withTable (tableAt now s before w after)).Eligible := by
      intro he
      by_cases hstays : LowerStays now s
      · exact h.not_eligible_of_stays hsplit hexp hw hstays he
      · exact helect ⟨he.ready,hstays⟩
    have hrun := (hpass.resolve_left fun he => hnot he.1).2
    have hsame := ((trySelfPromote_spec up promotedAt (s.marked now)).resolve_left
      fun he => helect (hend.mp he.1)).2
    rw [hrun,hsame]

end Watching

/-! ### All orders of the table -/

theorem eligible_perm {table table' : List PaxosNodeDescriptor} (hp : table.Perm table') :
    (s.withTable table).Eligible ↔ (s.withTable table').Eligible := by
  have hmove : ∀ {t t' : List PaxosNodeDescriptor}, t.Perm t' →
      (s.withTable t).Eligible → (s.withTable t').Eligible := by
    intro t t' ht he
    obtain ⟨n,hn,hid⟩ := he.listed
    exact ⟨he.ready,⟨n,ht.mem_iff.mp hn,hid⟩,fun n hn => he.lowest n (ht.mem_iff.mpr hn)⟩
  exact ⟨hmove hp,hmove hp.symm⟩

theorem trySelfPromote_perm (up : Reachability) (promotedAt : Int64) (s : KiviLeaf)
    {table table' : List PaxosNodeDescriptor} (hp : table.Perm table') :
    SameOutcome (trySelfPromote up promotedAt (s.withTable table))
      (trySelfPromote up promotedAt (s.withTable table')) := by
  have hiff := eligible_perm (s:=s) hp
  rcases trySelfPromote_spec up promotedAt (s.withTable table) with ⟨he,hrun⟩ | ⟨he,hrun⟩ <;>
    rcases trySelfPromote_spec up promotedAt (s.withTable table') with ⟨he',hrun'⟩ | ⟨he',hrun'⟩
  · rw [hrun,hrun']
    refine ⟨hp,rfl,rfl,?_⟩
    rw [promotion_packets,promotion_packets]
    exact ((hp.filter _).filter _).map _
  · exact (he' (hiff.mp he)).elim
  · exact (he (hiff.mpr he')).elim
  · rw [hrun,hrun']
    exact ⟨hp,rfl,rfl,.refl _⟩

theorem markThenElect_perm (up : Reachability) (now promotedAt : Int64)
    (hp : nodes.Perm s.localClusterNodes) :
    SameOutcome ((s.withTable nodes).markThenElect up now promotedAt)
      (s.markThenElect up now promotedAt) := by
  have hmarks := hp.map (detectEntry s.nodeId now)
  have hfires : (∃ w ∈ nodes, expires s.nodeId now w = true ∧ w.nodeId = s.localClusterLeader) ↔
      ∃ w ∈ s.localClusterNodes,
        expires s.nodeId now w = true ∧ w.nodeId = s.localClusterLeader :=
    exists_congr fun w => and_congr_left fun _ => hp.mem_iff
  by_cases h : ∃ w ∈ s.localClusterNodes,
      expires s.nodeId now w = true ∧ w.nodeId = s.localClusterLeader
  · have hrun := trySelfPromote_perm up promotedAt (s.marked now) hmarks
    have hleft : (s.withTable nodes).markThenElect up now promotedAt =
        trySelfPromote up promotedAt ((s.marked now).withTable
          (nodes.map (detectEntry s.nodeId now))) := if_pos (hfires.mpr h)
    rw [hleft,markThenElect,if_pos h]
    exact hrun
  · have hleft : (s.withTable nodes).markThenElect up now promotedAt =
        ((s.marked now).withTable (nodes.map (detectEntry s.nodeId now)),[]) :=
      if_neg (mt hfires.mp h)
    rw [hleft,markThenElect,if_neg h]
    exact ⟨hmarks,rfl,rfl,.refl _⟩

theorem Settled.withTable (h : Settled now s) (hp : nodes.Perm s.localClusterNodes) :
    Settled now (s.withTable nodes) := by
  rintro hready ⟨w,hw,hfires⟩
  rcases h hready ⟨w,hp.mem_iff.mp hw,hfires⟩ with halone | ⟨n,hn,hstays⟩
  · exact .inl fun n hn => halone n (hp.mem_iff.mp hn)
  · exact .inr ⟨n,hp.mem_iff.mpr hn,hstays⟩

/-- In a pass that is not settled the leader in front and the leader at the end make a
difference. -/
theorem settled_of_orderFree (h : s.Watching) (hfree : OrderFree now s) : Settled now s := by
  rintro hready ⟨w,hmem,hexp,hw⟩
  by_contra hnot
  obtain ⟨hothers,hnone⟩ := not_or.mp hnot
  obtain ⟨n,hn,hnexp,hnleader⟩ : ∃ n ∈ s.localClusterNodes,
      expires s.nodeId now n = true ∧ n.nodeId ≠ s.localClusterLeader := by
    simpa using hothers
  obtain ⟨before,after,hsplit⟩ := List.append_of_mem hmem
  let rest := before ++ after
  have hfirst : (w::rest).Perm s.localClusterNodes := by
    rw [hsplit]
    exact List.perm_middle.symm
  have hlast : (rest ++ [w]).Perm s.localClusterNodes :=
    (List.perm_append_singleton w rest).trans hfirst
  have hrest : n ∈ rest := by
    have hcons := hfirst.mem_iff.mpr hn
    exact (List.mem_cons.mp hcons).resolve_left fun he => hnleader (he ▸ hw)
  let up : Reachability := fun _ _ => true
  have hsame := (hfree _ hfirst up 0).trans (hfree _ hlast up 0).symm
  -- behind every other entry the leader is followed by the election
  have hlower : ¬ LowerStays now (s.withTable (rest ++ [w])) := by
    rintro ⟨m,hm,hstays⟩
    exact hnone ⟨m,hlast.mem_iff.mp hm,hstays⟩
  have hsplitLast : (s.withTable (rest ++ [w])).localClusterNodes = rest ++ w :: [] := rfl
  have helect := (h.withTable hlast).eligible_of_alone hsplitLast hexp hw hready hlower (by simp)
  have hrunLast := (((h.withTable hlast).detectFailures_eq hsplitLast hexp hw up
    0).resolve_right fun hnot => hnot.1 helect).2
  rw [hrunLast] at hsame
  have hsplitFirst : (s.withTable (w::rest)).localClusterNodes = [] ++ w :: rest := rfl
  rcases (h.withTable hfirst).detectFailures_eq hsplitFirst hexp hw up 0 with
    ⟨_,hrunFirst⟩ | ⟨_,hrunFirst⟩ <;> rw [hrunFirst] at hsame
  · -- in front of the others it is followed by one that tells the expiring entry as well
    have hlength := hsame.packets.length_eq
    simp only [promotion_packets,List.length_map,up,List.filter_true] at hlength
    exact absurd hlength (length_recipients_lt (s:=s) hexp hrest hnexp).ne'
  · have hrole : promotionReadyReplica = localLeader := hready.symm.trans hsame.leafRole
    exact absurd hrole (by decide)

/-- The outcome of a pass is free of the order of the table, and is that of the marks followed
by the election, exactly when the pass is settled. The marks are the same in any case. -/
theorem orderFree_iff (h : s.Watching) (now : Int64) :
    (OrderFree now s ↔ Settled now s) ∧ (ElectsAfterMarking now s ↔ Settled now s) ∧
      ∀ nodes, nodes.Perm s.localClusterNodes → ∀ up promotedAt,
        ((s.withTable nodes).detectFailures up now promotedAt).1.localClusterNodes.Perm
          (s.detectFailures up now promotedAt).1.localClusterNodes := by
  have hafter : Settled now s → ElectsAfterMarking now s := fun hsettled nodes hp up promotedAt =>
    (h.withTable hp).detectFailures_eq_markThenElect (hsettled.withTable hp) up promotedAt
  have hfree : ElectsAfterMarking now s → OrderFree now s := by
    intro helects nodes hp up promotedAt
    have hself := helects s.localClusterNodes (.refl _) up promotedAt
    change s.detectFailures up now promotedAt = s.markThenElect up now promotedAt at hself
    rw [helects nodes hp,hself]
    exact markThenElect_perm up now promotedAt hp
  have hsettled : OrderFree now s → Settled now s := settled_of_orderFree h
  refine ⟨⟨hsettled,fun hs => hfree (hafter hs)⟩,⟨fun he => hsettled (hfree he),hafter⟩,?_⟩
  intro nodes hp up promotedAt
  have htable : ∀ s : KiviLeaf, (s.detectFailures up now promotedAt).1.localClusterNodes =
      s.localClusterNodes.map (detectEntry s.nodeId now) := fun s =>
    PaxosNode.sweepLocal_table _ [] _ _
  rw [htable,htable]
  exact hp.map _

def third : KiviLeaf :=
  { KiviLeaf.new [] 5002 3 promotionReadyReplica false 1 ⟨0,[],0,0,0,false⟩ 0 with
    localClusterLeader := 1
    localClusterNodes := [⟨1,[],5000,0,-1,true⟩,⟨2,[],5001,0,-1,true⟩,⟨3,[],5002,0,-1,true⟩] }

theorem third_watching : third.Watching := ⟨by decide,by decide,by decide⟩

/-- With the leader listed last it takes over, with the leader listed first it does not. -/
theorem not_orderFree :
    third.Watching ∧ ¬ OrderFree 20000 third ∧ ¬ ElectsAfterMarking 20000 third := by
  refine ⟨third_watching,fun h => ?_,fun h => ?_⟩
  · have hrole := (h [⟨2,[],5001,0,-1,true⟩,⟨3,[],5002,0,-1,true⟩,⟨1,[],5000,0,-1,true⟩]
      (by decide) (fun _ _ => true) 20000).leafRole
    exact absurd hrole (by decide +kernel)
  · have hrole := congrArg (fun r => r.1.leafRole)
      (h third.localClusterNodes (.refl _) (fun _ _ => true) 20000)
    exact absurd hrole (by decide +kernel)

theorem orderFree_iff_third :
    (OrderFree 20000 third ↔ Settled 20000 third) ∧
      (ElectsAfterMarking 20000 third ↔ Settled 20000 third) ∧
      ∀ nodes, nodes.Perm third.localClusterNodes → ∀ up promotedAt,
        ((third.withTable nodes).detectFailures up 20000 promotedAt).1.localClusterNodes.Perm
          (third.detectFailures up 20000 promotedAt).1.localClusterNodes :=
  orderFree_iff third_watching 20000

end KiviLeaf
end Kivi
