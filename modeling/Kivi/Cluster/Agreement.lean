import Kivi.Cluster.ElectionValidity

/-! Elections among ready replicas that see the same members alive and the same leader dead:
the lowest id wins, and everybody who hears of it agrees. -/
namespace Kivi

open Transition (Run Taken)

namespace PaxosNode

theorem packet_of_sendAll {up : Reachability} {msg : Message} (h : msg.Clean)
    {nodes : List PaxosNodeDescriptor} {n : PaxosNodeDescriptor} (hn : n ∈ nodes)
    (hup : up n.nodeIp n.nodePort = true) :
    ⟨n.nodeIp,n.nodePort,msg⟩ ∈ (sendAll up nodes msg).packets := by
  obtain ⟨j,hj,hw,_⟩ := Message.toJson_writable h
  have hser : msg.serialize = .ok j.write := by
    simp only [Message.serialize,hj,except_bind_ok,hw.dump]
  have hone : (sendMessage up n.nodeIp n.nodePort msg).packets = [⟨n.nodeIp,n.nodePort,msg⟩] := by
    simp [sendMessage,RPCClient.send,hup,hser]
  induction nodes with
  | nil => simp at hn
  | cons k nodes ih =>
    have hsplit : (sendAll up (k::nodes) msg).packets =
        (sendMessage up k.nodeIp k.nodePort msg).packets ++ (sendAll up nodes msg).packets := rfl
    rw [hsplit,List.mem_append]
    rcases List.mem_cons.mp hn with rfl | hn
    · exact .inl (by rw [hone]; exact List.mem_cons_self)
    · exact .inr (ih hn)

end PaxosNode

namespace KiviLeaf

structure Hears (msg : Message) (s : KiviLeaf) (r : KiviLeaf × List Packet) : Prop where
  node : r.1.toPaxosNode = s.toPaxosNode
  role : r.1.leafRole = s.leafRole
  follows : ∀ m, msg = .localSyncSelfPromotion m →
    r.1.currentLeaderId = m.leaderNodeId.toInt32
  keeps : (∀ m, msg ≠ .localSyncSelfPromotion m) → r.1.currentLeaderId = s.currentLeaderId
  sends : ∀ p ∈ r.2, (∀ m, p.msg ≠ .heartBeat m) ∧ ∀ m, p.msg ≠ .localSyncSelfPromotion m

theorem hears_of_handle {s : KiviLeaf} {up : Reachability} {clock : Clock} {order : HashOrder}
    {msg : Message} {r : KiviLeaf × List Packet} (h : s.handleMessage up clock order msg = .ok r)
    (hmsg : ∀ m, msg ≠ .heartBeat m) : Hears msg s r := by
  have hreaction := reaction_message h
  have hnode : r.1.toPaxosNode = s.toPaxosNode := by
    rcases handleMessage_cases h with ⟨ts,kivi,_,rfl⟩ | ⟨_,rfl | ⟨req,requester,rfl,rfl⟩ |
      ⟨res,rfl,rfl⟩ | ⟨m,rfl,rfl⟩⟩
    · rfl
    · rfl
    · rfl
    · rfl
    · exact absurd rfl (hmsg m)
  refine ⟨hnode,?_,fun m hm => ?_,fun hnot => ?_,fun p hp => ⟨fun m hm => ?_,fun m hm => ?_⟩⟩
  · rcases hreaction.election with ⟨hrole,_⟩ | ⟨_,_,_,hin,_⟩ | ⟨_,_,_,_,hrole,_⟩
    · exact hrole
    · simp at hin
    · exact hrole
  · subst hm
    obtain rfl := Except.ok.inj h
    rfl
  · rcases hreaction.election with ⟨_,hview⟩ | ⟨_,_,_,hin,_⟩ | ⟨m,_,_,hin,_⟩
    · exact hview
    · simp at hin
    · exact absurd (Input.message.inj hin).1 (hnot m)
  · have hsends := hreaction.sends p hp
    rw [hm] at hsends
    obtain ⟨_,_,_,hin⟩ := hsends
    simp at hin
  · have hsends := hreaction.sends p hp
    rw [hm] at hsends
    obtain ⟨_,_,_,hin,_⟩ := hsends
    simp at hin

end KiviLeaf

namespace Cluster

variable {ι : Type} [DecidableEq ι] {c₀ s t : Cluster ι} {e : ElectionEvent ι} {i m : ι}
  {l : Int32} {history : List (Taken (Cluster ι) (ElectionEvent ι))}

/-- Ready replicas with distinct ids that fit an `int` follow one leader. The tables list every
id once: alive exactly the nodes of the cluster, at their addresses, and the leader dead. -/
structure CommonView (l : Int32) (c : Cluster ι) : Prop where
  distinct : Function.Injective fun i => (c.leaf i).nodeId
  intRange : ∀ i, (c.leaf i).nodeId.toInt32.toInt64 = (c.leaf i).nodeId
  running : ∀ i, c.running i = true
  role : ∀ i, (c.leaf i).leafRole = promotionReadyReplica
  leader : ∀ i, (c.leaf i).currentLeaderId = l
  listedOnce : ∀ i, ((c.leaf i).localClusterNodes.map PaxosNodeDescriptor.nodeId).Nodup
  members : ∀ i, ∀ n ∈ (c.leaf i).localClusterNodes, n.isAlive = true →
    ∃ j, n.nodeId = (c.leaf j).nodeId
  alive : ∀ i j, ∃ n ∈ (c.leaf i).localClusterNodes, n.nodeId = (c.leaf j).nodeId ∧
    n.isAlive = true ∧ n.nodeIp = (c.leaf j).nodeIp ∧ n.nodePort = (c.leaf j).nodePort
  leaderDead : ∀ i, ∃ n ∈ (c.leaf i).localClusterNodes, n.nodeId = l.toInt64 ∧ n.isAlive = false
  sent : c.sent = []

/-- A call of `try_self_promote` or the delivery of a packet. -/
def Contest : ElectionEvent ι → Prop
  | .election _ _ _ => True
  | .cluster (.deliver _ _ _ _ _) => True
  | _ => False

def Connected (history : List (Taken (Cluster ι) (ElectionEvent ι))) : Prop :=
  ∀ x ∈ history, ∀ i up now, x.event = .election i up now →
    ∀ j, up (x.pre.leaf j).nodeIp (x.pre.leaf j).nodePort = true

def AllDelivered (history : List (Taken (Cluster ι) (ElectionEvent ι))) (s : Cluster ι) : Prop :=
  ∀ n p msg, s.sent[n]? = some p → p.msg = .localSyncSelfPromotion msg →
    ∀ i, p.nodeIp = (s.leaf i).nodeIp → p.nodePort = (s.leaf i).nodePort →
      ∃ x ∈ history, ∃ up clock order, x.event = .cluster (.deliver i up n clock order)

def Told (history : List (Taken (Cluster ι) (ElectionEvent ι))) (i : ι) : Prop :=
  ∃ x ∈ history, ∃ up n clock order p msg, x.event = .cluster (.deliver i up n clock order) ∧
    x.pre.sent[n]? = some p ∧ p.msg = .localSyncSelfPromotion msg

/-! ### Who is eligible -/

section Eligible

variable {leaf : KiviLeaf}

omit [DecidableEq ι] in
theorem CommonView.eligible (h : CommonView l c₀)
    (hmin : ∀ j, (c₀.leaf m).nodeId ≤ (c₀.leaf j).nodeId)
    (hnode : leaf.toPaxosNode = (c₀.leaf m).toPaxosNode)
    (hrole : leaf.leafRole = promotionReadyReplica) (hleader : leaf.currentLeaderId = l) :
    leaf.Eligible := by
  obtain ⟨dead,hdead,hid,hflag⟩ := h.leaderDead m
  refine ⟨hrole,⟨dead,?_,by rw [hid,hleader]⟩,fun n hn halive => ?_⟩
  · rwa [hnode]
  · rw [hnode] at hn ⊢
    constructor
    · intro hsame
      rw [hleader,← hid] at hsame
      have hentry : n = dead := List.inj_on_of_nodup_map (h.listedOnce m) hn hdead hsame
      rw [hentry,hflag] at halive
      contradiction
    · obtain ⟨j,hj⟩ := h.members m n hn halive
      have hle := hmin j
      rw [hj]
      exact Int64.not_lt.mpr hle

omit [DecidableEq ι] in
/-- Only the lowest id is ever eligible: every other node lists it as alive. -/
theorem CommonView.lowest_of_eligible (h : CommonView l c₀)
    (hmin : ∀ j, (c₀.leaf m).nodeId ≤ (c₀.leaf j).nodeId)
    (hnode : leaf.toPaxosNode = (c₀.leaf i).toPaxosNode) (he : leaf.Eligible) : i = m := by
  obtain ⟨n,hn,hid,halive,_⟩ := h.alive i m
  have hnot := (he.lowest n (by rwa [hnode]) halive).2
  rw [hid,hnode] at hnot
  have hle := hmin i
  have heq : (c₀.leaf i).nodeId = (c₀.leaf m).nodeId :=
    Int64.le_antisymm (Int64.not_lt.mp hnot) hle
  exact h.distinct heq

omit [DecidableEq ι] in
theorem CommonView.written_to (h : CommonView l c₀)
    (hnode : leaf.toPaxosNode = (c₀.leaf i).toPaxosNode) {j : ι} (hj : j ≠ i) {up : Reachability}
    (hup : up (c₀.leaf j).nodeIp (c₀.leaf j).nodePort = true) (now : Int64) :
    ⟨(c₀.leaf j).nodeIp,(c₀.leaf j).nodePort,.localSyncSelfPromotion ⟨leaf.nodeId,now⟩⟩ ∈
      (leaf.promoted.broadcastSelfPromotion up now).packets := by
  obtain ⟨n,hn,hid,halive,hip,hport⟩ := h.alive i j
  have hne : n.nodeId ≠ leaf.nodeId := by
    rw [hid,hnode]
    exact fun hsame => hj (h.distinct hsame)
  have hmem : n ∈ leaf.promoted.followers := by
    refine List.mem_filter.mpr ⟨?_,?_⟩
    · change n ∈ leaf.localClusterNodes
      rwa [hnode]
    · change (decide (n.nodeId ≠ leaf.nodeId) && n.isAlive) = true
      simp [hne,halive]
  have hclean : (Message.localSyncSelfPromotion ⟨leaf.nodeId,now⟩).Clean := trivial
  rw [← hip,← hport] at hup ⊢
  exact PaxosNode.packet_of_sendAll hclean hmem hup

end Eligible

/-! ### One step of a contest -/

/-- Everything a step can be: an election that changes nothing, one that is won, or a delivery
that leaves tables and roles alone. -/
theorem contest_cases (hquiet : ∀ p ∈ s.sent, ∀ msg, p.msg ≠ .heartBeat msg) (he : Contest e)
    (h : s.electionStep e = some t) :
    (∃ i up now, e = .election i up now ∧ ¬ (s.leaf i).Eligible ∧ t = s) ∨
    (∃ i up now, e = .election i up now ∧ (s.leaf i).Eligible ∧ t = s.reacted i
      ((s.leaf i).promoted,((s.leaf i).promoted.broadcastSelfPromotion up now).packets)) ∨
    ∃ i up n clock order p r, e = .cluster (.deliver i up n clock order) ∧ s.sent[n]? = some p ∧
      t = s.reacted i r ∧ KiviLeaf.Hears p.msg (s.leaf i) r := by
  cases e with
  | heartbeat i now msg => exact he.elim
  | election i up now =>
    by_cases hrun : s.running i = true
    swap
    · simp [electionStep,hrun] at h
    simp only [electionStep,if_pos hrun,Option.some.injEq] at h
    rcases KiviLeaf.trySelfPromote_spec up now (s.leaf i) with ⟨hel,hr⟩ | ⟨hel,hr⟩
    · rw [hr] at h
      exact .inr (.inl ⟨i,up,now,rfl,hel,h.symm⟩)
    · rw [hr] at h
      have hsame : s.reacted i (s.leaf i,[]) = s := by simp [reacted]
      exact .inl ⟨i,up,now,rfl,hel,by rw [← h,hsame]⟩
  | cluster e =>
    cases e with
    | input i up input => exact he.elim
    | crash i => exact he.elim
    | deliver i up n clock order =>
      have hstep : s.step (.deliver i up n clock order) = some t := h
      rcases step_cases hstep with ⟨_,hcrash,_⟩ | ⟨j,up',input,r,hreact,_,hr,rfl⟩
      · contradiction
      · simp only [reaction,Option.bind_eq_some_iff] at hreact
        obtain ⟨p,hp,hi⟩ := hreact
        by_cases haddr : p.nodeIp = (s.leaf i).nodeIp ∧ p.nodePort = (s.leaf i).nodePort
        · rw [if_pos haddr,Option.some.injEq] at hi
          simp only [Prod.mk.injEq] at hi
          obtain ⟨rfl,rfl,rfl⟩ := hi
          have hhears := KiviLeaf.hears_of_handle hr (hquiet p (List.mem_of_getElem? hp))
          exact .inr (.inr ⟨i,up,n,clock,order,p,r,rfl,hp,rfl,hhears⟩)
        · simp [haddr] at hi

/-! ### The invariant -/

/-- What relates the registers, the promotions on the network and the steps so far when `m` has
the lowest id. -/
structure Agreeing (l : Int32) (c₀ : Cluster ι) (m : ι)
    (history : List (Taken (Cluster ι) (ElectionEvent ι))) (s : Cluster ι) : Prop where
  node : ∀ i, (s.leaf i).toPaxosNode = (c₀.leaf i).toPaxosNode
  quiet : ∀ p ∈ s.sent, ∀ msg, p.msg ≠ .heartBeat msg
  named : ∀ p ∈ s.sent, ∀ msg, p.msg = .localSyncSelfPromotion msg →
    msg.leaderNodeId = (c₀.leaf m).nodeId
  promoter : ∀ i, (∃ x ∈ history, PromotesItself x i) → i = m
  pending : (¬ ∃ x ∈ history, PromotesItself x m) →
    (s.leaf m).leafRole = promotionReadyReplica ∧ (s.leaf m).currentLeaderId = l ∧
      ∀ p ∈ s.sent, ∀ msg, p.msg ≠ .localSyncSelfPromotion msg
  settled : (∃ x ∈ history, PromotesItself x m) →
    (s.leaf m).currentLeaderId = (c₀.leaf m).nodeId.toInt32
  announced : (∃ x ∈ history, PromotesItself x m) → Connected history → ∀ j, j ≠ m →
    ∃ p ∈ s.sent, p.nodeIp = (c₀.leaf j).nodeIp ∧ p.nodePort = (c₀.leaf j).nodePort ∧
      ∃ msg, p.msg = .localSyncSelfPromotion msg
  told : ∀ i, Told history i → (s.leaf i).currentLeaderId = (c₀.leaf m).nodeId.toInt32
  tried : ∀ x ∈ history, ∀ up now, x.event = .election m up now →
    ∃ y ∈ history, PromotesItself y m

omit [DecidableEq ι] in
theorem agreeing_start (h : CommonView l c₀) : Agreeing l c₀ m [] c₀ := by
  have hsent := h.sent
  refine ⟨fun i => rfl,?_,?_,?_,fun _ => ⟨h.role m,h.leader m,?_⟩,?_,?_,?_,?_⟩
  · simp [hsent]
  · simp [hsent]
  · simp
  · simp [hsent]
  · simp
  · simp
  · simp [Told]
  · simp

omit [DecidableEq ι] in
theorem promotes_cons_iff (hrole : ∀ i, (t.leaf i).leafRole = (s.leaf i).leafRole) (i : ι) :
    (∃ x ∈ (⟨s,e,t⟩ :: history : List (Taken (Cluster ι) (ElectionEvent ι))),
      PromotesItself x i) ↔ ∃ x ∈ history, PromotesItself x i := by
  constructor
  · rintro ⟨x,hx,hp⟩
    rcases List.mem_cons.mp hx with rfl | hx
    · exact absurd ((hrole i).symm.trans hp.2) hp.1
    · exact ⟨x,hx,hp⟩
  · exact List.exists_mem_cons_of_exists

omit [DecidableEq ι] in
theorem Connected.tail {x : Taken (Cluster ι) (ElectionEvent ι)} (h : Connected (x :: history)) :
    Connected history := fun y hy => h y (List.mem_cons_of_mem _ hy)

omit [DecidableEq ι] in
theorem Told.tail {x : Taken (Cluster ι) (ElectionEvent ι)} (h : Told (x :: history) i)
    (hx : ∀ up n clock order p msg, x.event = .cluster (.deliver i up n clock order) →
      x.pre.sent[n]? = some p → p.msg ≠ .localSyncSelfPromotion msg) : Told history i := by
  obtain ⟨y,hy,up,n,clock,order,p,msg,he,hp,hmsg⟩ := h
  rcases List.mem_cons.mp hy with rfl | hy
  · exact absurd hmsg (hx up n clock order p msg he hp)
  · exact ⟨y,hy,up,n,clock,order,p,msg,he,hp,hmsg⟩

omit [DecidableEq ι] in
theorem Agreeing.pass (h : Agreeing l c₀ m history s) (hview : CommonView l c₀)
    (hmin : ∀ j, (c₀.leaf m).nodeId ≤ (c₀.leaf j).nodeId) {up : Reachability} {now : Int64}
    (hnot : ¬ (s.leaf i).Eligible) :
    Agreeing l c₀ m (⟨s,.election i up now,s⟩ :: history) s := by
  have hiff : ∀ j, (∃ x ∈ (⟨s,.election i up now,s⟩ :: history :
      List (Taken (Cluster ι) (ElectionEvent ι))), PromotesItself x j) ↔
      ∃ x ∈ history, PromotesItself x j := promotes_cons_iff fun _ => rfl
  have htell : ∀ j, Told (⟨s,.election i up now,s⟩ :: history) j → Told history j :=
    fun j htold => htold.tail (by simp)
  refine ⟨h.node,h.quiet,h.named,?_,?_,?_,?_,fun j htold => h.told j (htell j htold),?_⟩
  · intro j hj
    exact h.promoter j ((hiff j).mp hj)
  · intro hnone
    exact h.pending fun hpromoted => hnone ((hiff m).mpr hpromoted)
  · intro hpromoted
    exact h.settled ((hiff m).mp hpromoted)
  · intro hpromoted hconn
    exact h.announced ((hiff m).mp hpromoted) hconn.tail
  · intro x hx up' now' hevent
    rw [hiff]
    rcases List.mem_cons.mp hx with rfl | hx
    · by_contra hnone
      obtain rfl : i = m := (ElectionEvent.election.inj hevent).1
      have hpending := h.pending hnone
      exact hnot (hview.eligible hmin (h.node i) hpending.1 hpending.2.1)
    · exact h.tried x hx up' now' hevent

theorem Agreeing.win (h : Agreeing l c₀ m history s) (hview : CommonView l c₀)
    (hmin : ∀ j, (c₀.leaf m).nodeId ≤ (c₀.leaf j).nodeId) {up : Reachability} {now : Int64}
    {r : KiviLeaf × List Packet} (he : (s.leaf i).Eligible) (hleaf : r.1 = (s.leaf i).promoted)
    (hsends : r.2 = ((s.leaf i).promoted.broadcastSelfPromotion up now).packets) :
    Agreeing l c₀ m (⟨s,.election i up now,s.reacted i r⟩ :: history) (s.reacted i r) := by
  obtain rfl : i = m := hview.lowest_of_eligible hmin (h.node i) he
  have hid : (s.leaf i).nodeId = (c₀.leaf i).nodeId := congrArg PaxosNode.nodeId (h.node i)
  have hself : ((s.reacted i r).leaf i).currentLeaderId = (c₀.leaf i).nodeId.toInt32 := by
    rw [reacted_self,hleaf,← hid]
    rfl
  have hnode : r.1.toPaxosNode = (s.leaf i).toPaxosNode := by
    rw [hleaf]
    rfl
  have hnow : ∃ x ∈ (⟨s,.election i up now,s.reacted i r⟩ :: history :
      List (Taken (Cluster ι) (ElectionEvent ι))), PromotesItself x i := by
    refine ⟨_,List.mem_cons_self,?_,?_⟩
    · change (s.leaf i).leafRole ≠ localLeader
      rw [he.ready]
      decide
    · change ((s.reacted i r).leaf i).leafRole = localLeader
      rw [reacted_self,hleaf]
      rfl
  have hnew : ∀ p ∈ r.2, p.msg = .localSyncSelfPromotion ⟨(s.leaf i).nodeId,now⟩ := by
    intro p hp
    rw [hsends] at hp
    obtain ⟨n,_,rfl,_⟩ := PaxosNode.mem_sendAll hp
    rfl
  refine ⟨fun j => (reacted_same (f:=KiviLeaf.toPaxosNode) hnode j).trans (h.node j),
    List.forall_mem_append.mpr ⟨h.quiet,fun p hp msg => ?_⟩,
    List.forall_mem_append.mpr ⟨h.named,fun p hp msg hmsg => ?_⟩,fun j hj => ?_,
    fun hnone => absurd hnow hnone,fun _ => hself,fun _ hconn j hj => ?_,fun j htold => ?_,
    fun _ _ _ _ _ => hnow⟩
  · rw [hnew p hp]
    simp
  · rw [hnew p hp] at hmsg
    rw [← Message.localSyncSelfPromotion.inj hmsg]
    exact hid
  · obtain ⟨x,hx,hp⟩ := hj
    rcases List.mem_cons.mp hx with rfl | hx
    · by_contra hne
      have hafter : ((s.reacted i r).leaf j).leafRole = localLeader := hp.2
      rw [reacted_ne hne] at hafter
      exact hp.1 hafter
    · exact h.promoter j ⟨x,hx,hp⟩
  · have hup : up (c₀.leaf j).nodeIp (c₀.leaf j).nodePort = true := by
      have hall := hconn _ List.mem_cons_self i up now rfl j
      change up (s.leaf j).nodeIp (s.leaf j).nodePort = true at hall
      rwa [h.node j] at hall
    have hpacket := hview.written_to (h.node i) hj hup now
    rw [← hsends] at hpacket
    exact ⟨_,List.mem_append_right _ hpacket,rfl,rfl,_,rfl⟩
  · by_cases hj : j = i
    · subst j
      exact hself
    · rw [reacted_ne hj]
      exact h.told j (htold.tail (by simp))

section Deliver

variable {up : Reachability} {n : ℕ} {clock : Clock} {order : HashOrder} {p : Packet}
  {r : KiviLeaf × List Packet}

omit [DecidableEq ι] in
theorem Agreeing.follows (h : Agreeing l c₀ m history s) (hp : p ∈ s.sent)
    (hr : KiviLeaf.Hears p.msg (s.leaf i) r) {msg : LocalSyncSelfPromotionMessage}
    (hmsg : p.msg = .localSyncSelfPromotion msg) :
    r.1.currentLeaderId = (c₀.leaf m).nodeId.toInt32 := by
  rw [hr.follows msg hmsg,h.named p hp msg hmsg]

theorem Agreeing.keeps_following (h : Agreeing l c₀ m history s) (hp : p ∈ s.sent)
    (hr : KiviLeaf.Hears p.msg (s.leaf i) r) {j : ι}
    (hj : (s.leaf j).currentLeaderId = (c₀.leaf m).nodeId.toInt32) :
    ((s.reacted i r).leaf j).currentLeaderId = (c₀.leaf m).nodeId.toInt32 := by
  by_cases hji : j = i
  · subst j
    rw [reacted_self]
    by_cases hpromotion : ∃ msg, p.msg = .localSyncSelfPromotion msg
    · obtain ⟨msg,hmsg⟩ := hpromotion
      exact h.follows hp hr hmsg
    · rw [hr.keeps fun msg hmsg => hpromotion ⟨msg,hmsg⟩]
      exact hj
  · rwa [reacted_ne hji]

theorem Agreeing.told_step (h : Agreeing l c₀ m history s) (hp : s.sent[n]? = some p)
    (hr : KiviLeaf.Hears p.msg (s.leaf i) r) {j : ι}
    (htold : Told (⟨s,.cluster (.deliver i up n clock order),s.reacted i r⟩ :: history) j) :
    ((s.reacted i r).leaf j).currentLeaderId = (c₀.leaf m).nodeId.toInt32 := by
  have hpmem : p ∈ s.sent := List.mem_of_getElem? hp
  by_cases hbefore : Told history j
  · exact h.keeps_following hpmem hr (h.told j hbefore)
  · have hnow : j = i ∧ ∃ msg, p.msg = .localSyncSelfPromotion msg := by
      by_contra hnot
      refine hbefore (htold.tail fun up' n' clock' order' q msg he hq hmsg => hnot ?_)
      obtain ⟨rfl,rfl,rfl,_⟩ := Event.deliver.inj (ElectionEvent.cluster.inj he)
      change s.sent[n]? = some q at hq
      obtain rfl := Option.some.inj (hp.symm.trans hq)
      exact ⟨rfl,msg,hmsg⟩
    obtain ⟨rfl,msg,hmsg⟩ := hnow
    rw [reacted_self]
    exact h.follows hpmem hr hmsg

theorem Agreeing.deliver (h : Agreeing l c₀ m history s) (hp : s.sent[n]? = some p)
    (hr : KiviLeaf.Hears p.msg (s.leaf i) r) :
    Agreeing l c₀ m (⟨s,.cluster (.deliver i up n clock order),s.reacted i r⟩ :: history)
      (s.reacted i r) := by
  have hnode := reacted_same (f:=KiviLeaf.toPaxosNode) hr.node
  have hrole := reacted_same (f:=KiviLeaf.leafRole) hr.role
  have hiff : ∀ j, (∃ x ∈ (⟨s,.cluster (.deliver i up n clock order),s.reacted i r⟩ :: history :
      List (Taken (Cluster ι) (ElectionEvent ι))), PromotesItself x j) ↔
      ∃ x ∈ history, PromotesItself x j := promotes_cons_iff hrole
  have hpmem : p ∈ s.sent := List.mem_of_getElem? hp
  refine ⟨fun j => (hnode j).trans (h.node j),
    List.forall_mem_append.mpr ⟨h.quiet,fun q hq => (hr.sends q hq).1⟩,
    List.forall_mem_append.mpr ⟨h.named,fun q hq msg hmsg => absurd hmsg ((hr.sends q hq).2 msg)⟩,
    fun j hj => h.promoter j ((hiff j).mp hj),fun hnone => ?_,
    fun hpromoted => h.keeps_following hpmem hr (h.settled ((hiff m).mp hpromoted)),
    fun hpromoted hconn j hj => ?_,fun j htold => h.told_step hp hr htold,
    fun x hx up' now' hevent => ?_⟩
  · obtain ⟨hready,hleader,hsilent⟩ := h.pending fun hpromoted => hnone ((hiff m).mpr hpromoted)
    refine ⟨(hrole m).trans hready,?_,
      List.forall_mem_append.mpr ⟨hsilent,fun q hq => (hr.sends q hq).2⟩⟩
    have hkeeps := hr.keeps (hsilent p hpmem)
    rw [reacted_same (f:=KiviLeaf.currentLeaderId) hkeeps,hleader]
  · obtain ⟨q,hq,haddr⟩ := h.announced ((hiff m).mp hpromoted) hconn.tail j hj
    exact ⟨q,List.mem_append_left _ hq,haddr⟩
  · rw [hiff]
    rcases List.mem_cons.mp hx with rfl | hx
    · simp at hevent
    · exact h.tried x hx up' now' hevent

end Deliver

theorem agreeing_of_run (hview : CommonView l c₀)
    (hmin : ∀ j, (c₀.leaf m).nodeId ≤ (c₀.leaf j).nodeId)
    (hrun : Run electionStep c₀ history s) (hcontest : ∀ x ∈ history, Contest x.event) :
    Agreeing l c₀ m history s := by
  induction hrun with
  | nil => exact agreeing_start hview
  | @snoc history s e t _ hstep ih =>
    have h := ih fun x hx => hcontest x (List.mem_cons_of_mem _ hx)
    have he : Contest e := hcontest _ List.mem_cons_self
    rcases contest_cases h.quiet he hstep with ⟨i,up,now,rfl,hnot,rfl⟩ |
      ⟨i,up,now,rfl,hel,rfl⟩ | ⟨i,up,n,clock,order,p,r,rfl,hp,rfl,hr⟩
    · exact h.pass hview hmin hnot
    · exact h.win hview hmin hel rfl rfl
    · exact h.deliver hp hr

theorem sent_electionStep (h : s.electionStep e = some t) : s.sent <+: t.sent := by
  rcases electionStep_cases h with ⟨i,rfl⟩ | ⟨i,r,rfl,_⟩
  · exact List.prefix_refl _
  · exact List.prefix_append _ _

theorem delivered_sent (hrun : Run electionStep c₀ history s)
    {x : Taken (Cluster ι) (ElectionEvent ι)} (hx : x ∈ history) {up : Reachability} {n : ℕ}
    {clock : Clock} {order : HashOrder}
    (he : x.event = .cluster (.deliver i up n clock order)) :
    ∃ p, x.pre.sent[n]? = some p ∧ s.sent[n]? = some p := by
  obtain ⟨hstep,_⟩ := hrun.taken_step hx
  have hlater : x.post.sent <+: s.sent :=
    hrun.mono (R := fun s t => s.sent <+: t.sent) (fun _ => List.prefix_refl _) List.IsPrefix.trans
      (fun _ _ _ h => sent_electionStep h) hx
  have hprefix := (sent_electionStep hstep).trans hlater
  rw [he] at hstep
  have hdeliver : x.pre.step (.deliver i up n clock order) = some x.post := hstep
  rcases step_cases hdeliver with ⟨_,hcrash,_⟩ | ⟨_,_,_,_,hreact,_⟩
  · contradiction
  · simp only [reaction,Option.bind_eq_some_iff] at hreact
    obtain ⟨p,hp,_⟩ := hreact
    obtain ⟨rest,hrest⟩ := hprefix
    have hlast : s.sent[n]? = some p := by
      rw [← hrest,List.getElem?_append_left (List.getElem?_eq_some_iff.mp hp).1,hp]
    exact ⟨p,hp,hlast⟩

theorem Agreeing.told_all (h : Agreeing l c₀ m history s) (hrun : Run electionStep c₀ history s)
    (hpromoted : ∃ x ∈ history, PromotesItself x m) (hconn : Connected history)
    (hdelivered : AllDelivered history s) (hi : i ≠ m) : Told history i := by
  obtain ⟨p,hp,hip,hport,msg,hmsg⟩ := h.announced hpromoted hconn i hi
  obtain ⟨n,hn⟩ := List.getElem?_of_mem hp
  have hnode := h.node i
  obtain ⟨x,hx,up,clock,order,he⟩ := hdelivered n p msg hn hmsg i (by rw [hip,hnode])
    (by rw [hport,hnode])
  obtain ⟨q,hq,hlast⟩ := delivered_sent hrun hx he
  obtain rfl := Option.some.inj (hn.symm.trans hlast)
  exact ⟨x,hx,up,n,clock,order,p,msg,he,hq,hmsg⟩

/-- The lowest id, and nobody else, promotes itself. Its promotion is sent to the nodes that
accept a connection; when all of them do, everybody follows it once all is delivered. -/
theorem agreement_of_run [Finite ι] [Nonempty ι] (hview : CommonView l c₀)
    (hrun : Run electionStep c₀ history s) (hcontest : ∀ x ∈ history, Contest x.event)
    (hall : ∀ i, ∃ x ∈ history, ∃ up now, x.event = .election i up now) :
    ∃ m, (∀ j, (c₀.leaf m).nodeId ≤ (c₀.leaf j).nodeId) ∧
      (∀ i, (∃ x ∈ history, PromotesItself x i) ↔ i = m) ∧
      (Connected history → AllDelivered history s →
        ∀ i, (s.leaf i).currentLeaderId.toInt64 = (c₀.leaf m).nodeId) := by
  obtain ⟨m,hlow⟩ := Finite.exists_min fun i => (c₀.leaf i).nodeId.toInt
  have hmin : ∀ j, (c₀.leaf m).nodeId ≤ (c₀.leaf j).nodeId := fun j =>
    Int64.le_iff_toInt_le.mpr (hlow j)
  have h := agreeing_of_run hview hmin hrun hcontest
  obtain ⟨x,hx,up,now,he⟩ := hall m
  have hpromoted := h.tried x hx up now he
  refine ⟨m,hmin,fun i => ⟨h.promoter i,?_⟩,fun hconn hdelivered i => ?_⟩
  · rintro rfl
    exact hpromoted
  · have hfollows : (s.leaf i).currentLeaderId = (c₀.leaf m).nodeId.toInt32 := by
      by_cases hi : i = m
      · subst i
        exact h.settled hpromoted
      · exact h.told i (h.told_all hrun hpromoted hconn hdelivered hi)
    rw [hfollows,hview.intRange]

/-! ### The two replicas of the usage comment after the end of their leader -/

def survivorId : Bool → Int64
  | false => 10001
  | true => 10002

def survivorPort : Bool → Int32
  | false => 5001
  | true => 5002

def survivors : Cluster Bool where
  leaf b :=
    let ip := Bytes.ofString "127.0.0.1"
    { KiviLeaf.new ip (survivorPort b) (survivorId b) promotionReadyReplica false 10000
        ⟨0,[],0,0,0,false⟩ 0 with
      localClusterNodes := [⟨10000,ip,5000,0,-1,false⟩,⟨10001,ip,5001,0,-1,true⟩,
        ⟨10002,ip,5002,0,-1,true⟩] }
  running _ := true
  sent := []

theorem survivors_commonView : CommonView 10000 survivors where
  distinct := by decide
  intRange := by decide
  running := fun _ => rfl
  role := fun _ => rfl
  leader := fun _ => rfl
  listedOnce := by decide
  members := by decide
  alive := by decide
  leaderDead := by decide
  sent := rfl

/-- The first replica takes over, the second one hears of it and then runs its own election. -/
theorem agreement_of_run_survivors : ∃ history s, Run electionStep survivors history s ∧
    Connected history ∧ AllDelivered history s ∧ ∃ m,
      (∀ i, (∃ x ∈ history, PromotesItself x i) ↔ i = m) ∧
      ∀ i, (s.leaf i).currentLeaderId.toInt64 = (survivors.leaf m).nodeId := by
  have hend : ((Transition.exec electionStep survivors [.election false reachable 0,
      .cluster (.deliver true unreachable 0 ⟨0,0⟩ .stored),.election true reachable 0]).any fun s =>
        s.sent.length == 1 && (s.sent[0]?).all fun p => p.nodePort != (s.leaf false).nodePort) =
      true := by
    decide +kernel
  obtain ⟨history,s,hrun,hevents,hs⟩ := Run.of_exec_any _ hend
  simp only [Bool.and_eq_true,beq_iff_eq] at hs
  have hmem : ∀ e ∈ [ElectionEvent.election false reachable 0,
      .cluster (.deliver true unreachable 0 ⟨0,0⟩ .stored),.election true reachable 0],
      ∃ x ∈ history, x.event = e := by
    intro e he
    rw [← List.mem_reverse,← hevents] at he
    exact List.mem_map.mp he
  have hcontest : ∀ x ∈ history, Contest x.event := by
    intro x hx
    have he := Run.event_mem hevents hx
    simp only [List.mem_cons,List.not_mem_nil,or_false] at he
    rcases he with he | he | he
    all_goals rw [he]; trivial
  have hall : ∀ i, ∃ x ∈ history, ∃ up now, x.event = .election i up now := by
    intro i
    cases i with
    | false =>
      obtain ⟨x,hx,he⟩ := hmem _ List.mem_cons_self
      exact ⟨x,hx,_,_,he⟩
    | true =>
      obtain ⟨x,hx,he⟩ := hmem (.election true reachable 0) (by simp)
      exact ⟨x,hx,_,_,he⟩
  have hconn : Connected history := by
    intro x hx i up now he j
    have hevent := Run.event_mem hevents hx
    rw [he] at hevent
    simp only [List.mem_cons,List.not_mem_nil,or_false,ElectionEvent.election.injEq,
      reduceCtorEq,false_or] at hevent
    rcases hevent with ⟨_,rfl,_⟩ | ⟨_,rfl,_⟩
    all_goals rfl
  have hdelivered : AllDelivered history s := by
    intro n p msg hn _ i _ hport
    have hlt := (List.getElem?_eq_some_iff.mp hn).1
    obtain rfl : n = 0 := by omega
    cases i with
    | false =>
      have hother := hs.2
      rw [hn] at hother
      simp [hport] at hother
    | true =>
      obtain ⟨x,hx,he⟩ := hmem (.cluster (.deliver true unreachable 0 ⟨0,0⟩ .stored)) (by simp)
      exact ⟨x,hx,_,_,_,he⟩
  obtain ⟨m,_,hpromoter,hfollowed⟩ :=
    agreement_of_run survivors_commonView hrun hcontest hall
  exact ⟨history,s,hrun,hconn,hdelivered,m,hpromoter,hfollowed hconn hdelivered⟩

end Cluster
end Kivi
