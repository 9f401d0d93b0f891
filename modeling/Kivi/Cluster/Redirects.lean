import Kivi.Cluster.Restarts

/-! Promotions reach only nodes of higher id. So a client that follows the redirects comes to a
node that takes its writes, no node leads twice, and a cluster that has split does not heal.
Where processes are started again the redirects still end. -/
namespace Kivi

open Transition (Run Taken)
open RestController (acceptsPut)
open Relation (ReflTransGen)

/-- A promotion goes to entries of higher id only: an alive entry of lower id would have
prevented it. -/
theorem KiviLeaf.promotion_upward {up : Reachability} {input : Input} {s : KiviLeaf}
    {r : KiviLeaf × List Packet} (h : s.react up input = .ok r) {p : Packet} (hp : p ∈ r.2)
    {m : LocalSyncSelfPromotionMessage} (hm : p.msg = .localSyncSelfPromotion m) :
    ∃ n ∈ s.entries, s.nodeId < n.nodeId ∧ n.address = (p.nodeIp,p.nodePort) := by
  have hsends := (react_reaction h).sends p hp
  rw [hm] at hsends
  obtain ⟨_,now,_,rfl,_⟩ := hsends
  obtain rfl := Except.ok.inj h
  rcases detectFailures_spec up now m.promotionTimestamp s with ⟨table,hpass,hr⟩ | ⟨_,hr⟩
  · rw [hr] at hp
    obtain ⟨n,hn,rfl,_⟩ := PaxosNode.mem_sendAll hp
    obtain ⟨hmem,htest⟩ := List.mem_filter.mp hn
    rw [Bool.and_eq_true,decide_eq_true_eq] at htest
    obtain ⟨e,he,hid,haddr⟩ := hpass.entry hmem
    have hother : n.nodeId ≠ s.nodeId := htest.1
    have hnot : ¬ n.nodeId < s.nodeId := by
      obtain ⟨_,_,_,_,_,_,_,heligible⟩ := hpass
      exact (heligible.lowest n hmem htest.2).2
    refine ⟨e,he,?_,haddr⟩
    rw [hid]
    grind
  · simp [hr] at hp

namespace Cluster

variable {ι : Type} [DecidableEq ι] {launch : ι → Launch} {leader : ι} {s t : Cluster ι}
  {history : List (Taken (Cluster ι) (Event ι))}

theorem localLeader_step {e : Event ι} {i : ι} (h : (s.leaf i).leafRole = localLeader)
    (hs : s.step e = some t) : (t.leaf i).leafRole = localLeader := by
  refine leaf_step (P:=fun a => a.leafRole = localLeader) (fun _ _ a r ha hr => ?_) hs i h
  rcases (KiviLeaf.react_reaction hr).election with ⟨hrole,_⟩ | ⟨_,_,_,_,_,hrole,_⟩ |
    ⟨_,_,_,_,hrole,_⟩
  · exact hrole.trans ha
  · exact hrole
  · exact hrole.trans ha

theorem PromotedIn.roles {x : Taken (Cluster ι) (Event ι)} {i : ι} (h : PromotedIn x i)
    (hs : x.pre.step x.event = some x.post) :
    (x.pre.leaf i).leafRole = promotionReadyReplica ∧ (x.post.leaf i).leafRole = localLeader := by
  obtain ⟨up,now,promotedAt,table,he,hpass⟩ := h
  rw [he] at hs
  rw [detect_post hs]
  rcases KiviLeaf.detectFailures_spec up now promotedAt (x.pre.leaf i) with ⟨_,_,hr⟩ | ⟨hnot,_⟩
  · obtain ⟨_,_,_,_,_,_,_,heligible⟩ := hpass
    rw [hr]
    exact ⟨heligible.ready,rfl⟩
  · exact absurd hpass (hnot table)

/-! ### Ranks -/

def HasPromoted (history : List (Taken (Cluster ι) (Event ι))) (k : ι) : Prop :=
  ∃ x ∈ history, PromotedIn x k

/-- Where a node stands: it leads, or it follows the leader it was launched with, or it follows
a node of lower id that has promoted itself. -/
inductive Standing (launch : ι → Launch) (leader : ι)
    (history : List (Taken (Cluster ι) (Event ι))) (s : Cluster ι) (i : ι) : Prop
  | leads (role : (s.leaf i).leafRole = localLeader)
      (view : (s.leaf i).currentLeaderId = (launch i).nodeId.toInt32)
  | loyal (role : (s.leaf i).leafRole ≠ localLeader)
      (view : (s.leaf i).currentLeaderId = (launch leader).nodeId.toInt32)
  | defers (k : ι) (view : (s.leaf i).currentLeaderId = (launch k).nodeId.toInt32)
      (promoted : HasPromoted history k) (lower : (launch k).nodeId < (launch i).nodeId)

structure Ranked (launch : ι → Launch) (leader : ι) (history : List (Taken (Cluster ι) (Event ι)))
    (s : Cluster ι) : Prop where
  office : (s.leaf leader).leafRole = localLeader
  promoted : ∀ k, HasPromoted history k → (s.leaf k).leafRole = localLeader ∧ k ≠ leader
  sent : ∀ p ∈ s.sent, ∀ m, p.msg = .localSyncSelfPromotion m → ∀ i,
    p.nodeIp = (launch i).nodeIp → p.nodePort = (launch i).nodePort →
      ∃ k, m.leaderNodeId = (launch k).nodeId ∧ HasPromoted history k ∧
        (launch k).nodeId < (launch i).nodeId
  standing : ∀ i, Standing launch leader history s i

omit [DecidableEq ι] in
theorem HasPromoted.cons {k : ι} (h : HasPromoted history k) (x : Taken (Cluster ι) (Event ι)) :
    HasPromoted (x :: history) k := List.exists_mem_cons_of_exists h

omit [DecidableEq ι] in
theorem Standing.kept {i : ι} (h : Standing launch leader history s i)
    (hrole : (t.leaf i).leafRole = (s.leaf i).leafRole)
    (hview : (t.leaf i).currentLeaderId = (s.leaf i).currentLeaderId)
    (x : Taken (Cluster ι) (Event ι)) : Standing launch leader (x :: history) t i := by
  cases h with
  | leads role view => exact .leads (hrole.trans role) (hview.trans view)
  | loyal role view => exact .loyal (by rwa [hrole]) (hview.trans view)
  | defers k view promoted lower => exact .defers k (hview.trans view) (promoted.cons x) lower

theorem Ranked.promoted_step {e : Event ι} (h : Ranked launch leader history s)
    (hs : s.step e = some t) (k : ι) (hk : HasPromoted (⟨s,e,t⟩ :: history) k) :
    (t.leaf k).leafRole = localLeader ∧ k ≠ leader := by
  obtain ⟨x,hx,hp⟩ := hk
  rcases List.mem_cons.mp hx with rfl | hx
  · obtain ⟨hready,hrole⟩ := hp.roles hs
    refine ⟨hrole,?_⟩
    rintro rfl
    exact absurd (hready.symm.trans h.office) (by decide)
  · obtain ⟨hrole,hk⟩ := h.promoted k ⟨x,hx,hp⟩
    exact ⟨localLeader_step hrole hs,hk⟩

omit [DecidableEq ι] in
theorem promotion_lower (hbook : AddressBook launch) {i j : ι} {a : KiviLeaf}
    (hcharts : Charts launch i a) {up : Reachability} {input : Input} {r : KiviLeaf × List Packet}
    (hr : a.react up input = .ok r) {p : Packet} (hp : p ∈ r.2)
    {m : LocalSyncSelfPromotionMessage} (hm : p.msg = .localSyncSelfPromotion m)
    (hip : p.nodeIp = (launch j).nodeIp) (hport : p.nodePort = (launch j).nodePort) :
    m.leaderNodeId = (launch i).nodeId ∧ (launch i).nodeId < (launch j).nodeId := by
  have hsends := (KiviLeaf.react_reaction hr).sends p hp
  rw [hm] at hsends
  obtain ⟨n,hn,hlt,haddr⟩ := KiviLeaf.promotion_upward hr hp hm
  obtain ⟨k,hk,hka,_⟩ := hcharts.entry hn
  have hkj : k = j := by
    apply hbook.addresses
    change ((launch k).nodeIp,(launch k).nodePort) = ((launch j).nodeIp,(launch j).nodePort)
    rw [← hka,haddr,hip,hport]
  rw [hk,hkj,hcharts.nodeId] at hlt
  exact ⟨hsends.1.trans hcharts.nodeId,hlt⟩

omit [DecidableEq ι] in
theorem promotedIn_of_sent {e : Event ι} {i : ι} {up : Reachability} {input : Input}
    {r : KiviLeaf × List Packet} (hreact : s.reaction e = some (i,up,input))
    (hr : (s.leaf i).react up input = .ok r) {p : Packet} (hp : p ∈ r.2)
    {m : LocalSyncSelfPromotionMessage} (hm : p.msg = .localSyncSelfPromotion m) :
    PromotedIn ⟨s,e,t⟩ i := by
  have hsends := (KiviLeaf.react_reaction hr).sends p hp
  rw [hm] at hsends
  obtain ⟨_,now,table,rfl,hpass⟩ := hsends
  obtain rfl := reaction_input hreact (by simp)
  exact ⟨up,now,m.promotionTimestamp,table,rfl,hpass⟩

omit [DecidableEq ι] in
theorem promotion_handled (hcharts : Charted launch s) {e : Event ι} {i : ι} {up : Reachability}
    {m : LocalSyncSelfPromotionMessage} {clock : Clock} {order : HashOrder}
    (hreact : s.reaction e = some (i,up,.message (.localSyncSelfPromotion m) clock order)) :
    ∃ p ∈ s.sent, p.msg = .localSyncSelfPromotion m ∧ p.nodeIp = (launch i).nodeIp ∧
      p.nodePort = (launch i).nodePort := by
  rcases reaction_cases hreact with ⟨_,hnot⟩ | ⟨n,p,_,_,_,hp,hip,hport,hin⟩
  · exact absurd rfl (hnot _ clock order)
  · exact ⟨p,hp,(Input.message.inj hin).1.symm,hip.trans (hcharts.leaves i).nodeIp,
      hport.trans (hcharts.leaves i).nodePort⟩

/-- What a step makes of the role and the view of a node. -/
theorem turn_cases (hcharts : Charted launch s) {e : Event ι} (hs : s.step e = some t) (i : ι) :
    ((t.leaf i).leafRole = (s.leaf i).leafRole ∧
      (t.leaf i).currentLeaderId = (s.leaf i).currentLeaderId) ∨
    (PromotedIn ⟨s,e,t⟩ i ∧ (t.leaf i).leafRole = localLeader ∧
      (t.leaf i).currentLeaderId = (launch i).nodeId.toInt32) ∨
    (t.leaf i).leafRole = (s.leaf i).leafRole ∧ ∃ p ∈ s.sent, ∃ m,
      p.msg = .localSyncSelfPromotion m ∧ p.nodeIp = (launch i).nodeIp ∧
        p.nodePort = (launch i).nodePort ∧
        (t.leaf i).currentLeaderId = m.leaderNodeId.toInt32 := by
  rcases step_cases hs with ⟨_,_,_,rfl⟩ | ⟨j,up,input,r,hreact,_,hr,rfl⟩
  · exact .inl ⟨rfl,rfl⟩
  by_cases hij : i = j
  swap
  · rw [reacted_ne hij]
    exact .inl ⟨rfl,rfl⟩
  subst j
  simp only [reacted_self]
  rcases (KiviLeaf.react_reaction hr).election with hsame |
    ⟨now,promotedAt,table,rfl,hpass,hrole,hview⟩ | ⟨m,clock,order,rfl,hrole,hview⟩
  · exact .inl hsame
  · obtain rfl := reaction_input hreact (by simp)
    refine .inr (.inl ⟨⟨up,now,promotedAt,table,rfl,hpass⟩,hrole,?_⟩)
    rw [hview,(hcharts.leaves i).nodeId]
  · obtain ⟨p,hp,hm,hip,hport⟩ := promotion_handled hcharts hreact
    exact .inr (.inr ⟨hrole,p,hp,m,hm,hip,hport,hview⟩)

theorem Ranked.turn (h : Ranked launch leader history s) (hcharts : Charted launch s)
    {e : Event ι} (hs : s.step e = some t) (i : ι) :
    ((t.leaf i).leafRole = (s.leaf i).leafRole ∧
      (t.leaf i).currentLeaderId = (s.leaf i).currentLeaderId) ∨
    (PromotedIn ⟨s,e,t⟩ i ∧ (t.leaf i).leafRole = localLeader ∧
      (t.leaf i).currentLeaderId = (launch i).nodeId.toInt32) ∨
    (t.leaf i).leafRole = (s.leaf i).leafRole ∧ ∃ k, HasPromoted history k ∧
      (t.leaf i).currentLeaderId = (launch k).nodeId.toInt32 ∧
      (launch k).nodeId < (launch i).nodeId := by
  rcases turn_cases hcharts hs i with hsame | hpromoted |
    ⟨hrole,p,hp,m,hm,hip,hport,hview⟩
  · exact .inl hsame
  · exact .inr (.inl hpromoted)
  · obtain ⟨k,hk,hpromoted,hlt⟩ := h.sent p hp m hm i hip hport
    exact .inr (.inr ⟨hrole,k,hpromoted,by rw [hview,hk],hlt⟩)

theorem Ranked.step (hbook : AddressBook launch) (hcharts : Charted launch s) {e : Event ι}
    (h : Ranked launch leader history s) (hs : s.step e = some t) :
    Ranked launch leader (⟨s,e,t⟩ :: history) t := by
  have hold : ∀ p ∈ s.sent, ∀ m, p.msg = .localSyncSelfPromotion m → ∀ i,
      p.nodeIp = (launch i).nodeIp → p.nodePort = (launch i).nodePort →
        ∃ k, m.leaderNodeId = (launch k).nodeId ∧ HasPromoted (⟨s,e,t⟩ :: history) k ∧
          (launch k).nodeId < (launch i).nodeId := by
    intro p hp m hm i hip hport
    obtain ⟨k,hk,hpromoted,hlt⟩ := h.sent p hp m hm i hip hport
    exact ⟨k,hk,hpromoted.cons _,hlt⟩
  refine ⟨localLeader_step h.office hs,h.promoted_step hs,?_,fun i => ?_⟩
  · rcases step_cases hs with ⟨i,_,_,rfl⟩ | ⟨i,up,input,r,hreact,_,hr,rfl⟩
    · exact hold
    · refine List.forall_mem_append.mpr ⟨hold,fun p hp m hm j hip hport => ?_⟩
      obtain ⟨hid,hlt⟩ := promotion_lower hbook (hcharts.leaves i) hr hp hm hip hport
      exact ⟨i,hid,⟨_,List.mem_cons_self,promotedIn_of_sent hreact hr hp hm⟩,hlt⟩
  · rcases h.turn hcharts hs i with ⟨hrole,hview⟩ | ⟨_,hrole,hview⟩ |
      ⟨_,k,hpromoted,hview,hlt⟩
    · exact (h.standing i).kept hrole hview _
    · exact .leads hrole hview
    · exact .defers k hview (hpromoted.cons _) hlt

theorem ranked_of_run (h : OneLeader launch leader) (hbook : AddressBook launch)
    (hrun : Run step (Cluster.launch launch) history s) : Ranked launch leader history s := by
  apply hrun.history_invariant
  · have hrole : ∀ i, ((Cluster.launch launch).leaf i).leafRole = (launch i).leafRole :=
      fun _ => rfl
    refine ⟨?_,by simp [HasPromoted],by simp [Cluster.launch],fun i => ?_⟩
    · rw [hrole,h.role,if_pos rfl]
    · by_cases hi : i = leader
      · subst i
        exact .leads (by rw [hrole,h.role,if_pos rfl]) (h.leaderId leader)
      · refine .loyal ?_ (h.leaderId i)
        rw [hrole,h.role,if_neg hi]
        decide
  · intro _ _ _ _ hbefore hranked hstep
    exact hranked.step hbook (charted_of_run hbook hbefore) hstep

/-! ### Redirects -/

omit [DecidableEq ι] in
theorem ne_of_lower {i k : ι} (h : (launch k).nodeId < (launch i).nodeId) : i ≠ k := by
  rintro rfl
  exact Int64.lt_irrefl h

/-- From a node in office the redirects lead further and further down, to a node that takes
writes: this one or one that has promoted itself. -/
theorem redirects_down (h : OneLeader launch leader) (hbook : FullBook launch)
    (hlinks : ∀ i, (launch i).Linkable) (hrun : Run step (Cluster.launch launch) history s) {k : ι}
    (hk : (s.leaf k).leafRole = localLeader) :
    ∃ j, (j = k ∨ HasPromoted history j) ∧ ReflTransGen (SendsTo launch s) k j ∧
      acceptsPut (s.leaf j) = true := by
  have hranked := ranked_of_run h hbook.toAddressBook hrun
  induction hn : ((launch k).nodeId.toInt+2^63).toNat using Nat.strong_induction_on
    generalizing k with
  | _ n ih =>
    cases hranked.standing k with
    | leads role view =>
      exact ⟨k,.inl rfl,.refl,(acceptsPut_view h (lasting_of_run h hrun k).nodeId view).mpr rfl⟩
    | loyal role view => exact absurd hk role
    | defers l view promoted lower =>
      have hlt := Int64.lt_iff_toInt_lt.mp lower
      have hle := Int64.le_toInt (launch l).nodeId
      obtain ⟨j,hj,hpath,haccepts⟩ := ih _ (by omega) (hranked.promoted l promoted).1 rfl
      refine ⟨j,.inr ?_,hpath.head (sendsTo_of_run h hbook hlinks hrun (ne_of_lower lower) view),haccepts⟩
      rcases hj with rfl | hj
      · exact promoted
      · exact hj

theorem trio_linkable (k : Fin 3) : (trio k).Linkable :=
  ⟨(by decide : Bytes.isUtf8 (Bytes.ofString "127.0.0.1") = true),
    (by decide : (Bytes.ofString "127.0.0.1").all Fields.isInner = true)⟩

theorem leader_inj (h : OneLeader launch leader) {i k : ι}
    (hik : (launch i).nodeId.toInt32 = (launch k).nodeId.toInt32) : i = k := by
  apply h.distinct
  change (launch i).nodeId = (launch k).nodeId
  rw [← h.intRange i,← h.intRange k,hik]

theorem Ranked.office_of_acceptsPut (h : OneLeader launch leader)
    (hranked : Ranked launch leader history s) {i : ι}
    (hid : (s.leaf i).nodeId = (launch i).nodeId) (hi : acceptsPut (s.leaf i) = true) :
    (s.leaf i).leafRole = localLeader := by
  cases hranked.standing i with
  | leads role view => exact role
  | loyal role view =>
    obtain rfl := (acceptsPut_view h hid view).mp hi
    exact hranked.office
  | defers k view promoted lower =>
    obtain rfl := (acceptsPut_view h hid view).mp hi
    exact absurd lower Int64.lt_irrefl

theorem deposed_of_run (h : OneLeader launch leader) (hbook : AddressBook launch)
    {late : List (Taken (Cluster ι) (Event ι))} (hs : Run step (Cluster.launch launch) history s)
    (ht : Run step s late t) {i : ι} (hrole : (s.leaf i).leafRole = localLeader)
    (hview : (s.leaf i).currentLeaderId ≠ (launch i).nodeId.toInt32) :
    (t.leaf i).leafRole = localLeader ∧
      (t.leaf i).currentLeaderId ≠ (launch i).nodeId.toInt32 := by
  induction ht with
  | nil => exact ⟨hrole,hview⟩
  | @snoc late t e u hrun hstep ih =>
    have hbefore := hs.append hrun
    refine ⟨localLeader_step ih.1 hstep,?_⟩
    rcases (ranked_of_run h hbook hbefore).turn (charted_of_run hbook hbefore) hstep i with
      ⟨_,hsame⟩ | ⟨hpromoted,_,_⟩ | ⟨_,k,_,hk,hlt⟩
    · rw [hsame]
      exact ih.2
    · have hready := (hpromoted.roles hstep).1
      exact absurd (hready.symm.trans ih.1) (by decide)
    · rw [hk]
      exact fun heq => ne_of_lower hlt (leader_inj h heq).symm

/-- A node that has stopped leading never leads again. -/
theorem leads_once {ι : Type} [DecidableEq ι] {launch : ι → Launch} {leader : ι}
    (h : OneLeader launch leader) (hbook : AddressBook launch)
    {early middle late : List (Taken (Cluster ι) (Event ι))} {s t u : Cluster ι}
    (hs : Run step (Cluster.launch launch) early s) (ht : Run step s middle t)
    (hu : Run step t late u) {i : ι} (hled : acceptsPut (s.leaf i) = true)
    (hlost : acceptsPut (t.leaf i) = false) : acceptsPut (u.leaf i) = false := by
  have hid := (lasting_of_run h hs i).nodeId
  have hbefore := hs.append ht
  have hoffice := (ranked_of_run h hbook hs).office_of_acceptsPut h hid hled
  have hrole : (t.leaf i).leafRole = localLeader :=
    ht.invariant (I:=fun v => (v.leaf i).leafRole = localLeader) hoffice
      fun _ _ _ hv hstep => localLeader_step hv hstep
  have hview : (t.leaf i).currentLeaderId ≠ (launch i).nodeId.toInt32 := by
    intro hview
    have haccepts := (acceptsPut_view h (lasting_of_run h hbefore i).nodeId hview).mpr rfl
    rw [hlost] at haccepts
    cases haccepts
  have hlater := deposed_of_run h hbook hbefore hu hrole hview
  have hafter := hbefore.append hu
  rw [← Bool.not_eq_true]
  intro haccepts
  cases (ranked_of_run h hbook hafter).standing i with
  | leads _ view => exact hlater.2 view
  | loyal role _ => exact role hlater.1
  | defers k view _ lower =>
    obtain rfl := (acceptsPut_view h (lasting_of_run h hafter i).nodeId view).mp haccepts
    exact Int64.lt_irrefl lower

def usurped : List (Event (Fin 3)) :=
  [.input firstNode reachable (.heartbeat 5000 5000 0),
    .deliver thirdNode reachable 1 ⟨5000,5000⟩ .stored,
    .input thirdNode reachable (.detect 16000 16000),
    .input thirdNode reachable (.detect 21000 21000)]

def outranked : List (Event (Fin 3)) :=
  [.input secondNode reachable (.detect 22000 22000),
    .deliver thirdNode reachable 2 ⟨22001,22001⟩ .stored]

theorem leads_once_trio : ∃ early middle late s t u, Run step (Cluster.launch trio) early s ∧
    Run step s middle t ∧ Run step t late u ∧ acceptsPut (s.leaf thirdNode) = true ∧
      acceptsPut (t.leaf thirdNode) = false ∧ acceptsPut (u.leaf thirdNode) = false := by
  have hend : ((Transition.exec step (Cluster.launch trio) usurped).any fun s =>
      acceptsPut (s.leaf thirdNode) && (Transition.exec step s outranked).any fun t =>
        !acceptsPut (t.leaf thirdNode) && (Transition.exec step t
          [.input thirdNode reachable (.detect 60000 60000)]).isSome) = true := by
    decide +kernel
  simp only [Option.any_eq_true,Bool.and_eq_true,Bool.not_eq_true',
    Option.isSome_iff_exists] at hend
  obtain ⟨s,hs,hled,t,ht,hlost,u,hu⟩ := hend
  obtain ⟨early,hearly,_⟩ := Run.of_exec _ hs
  obtain ⟨middle,hmiddle,_⟩ := Run.of_exec _ ht
  obtain ⟨late,hlate,_⟩ := Run.of_exec _ hu
  exact ⟨early,middle,late,s,t,u,hearly,hmiddle,hlate,hled,hlost,
    leads_once trio_oneLeader trio_addressBook hearly hmiddle hlate hled hlost⟩

/-! ### A split -/

theorem left_of_run (h : OneLeader launch leader) (hbook : AddressBook launch)
    {late : List (Taken (Cluster ι) (Event ι))} (hs : Run step (Cluster.launch launch) history s)
    (ht : Run step s late t) {i : ι}
    (hleft : (s.leaf i).currentLeaderId ≠ (launch leader).nodeId.toInt32) :
    (t.leaf i).currentLeaderId ≠ (launch leader).nodeId.toInt32 := by
  induction ht with
  | nil => exact hleft
  | @snoc late t e u hrun hstep ih =>
    have hbefore := hs.append hrun
    have hranked := ranked_of_run h hbook hbefore
    rcases hranked.turn (charted_of_run hbook hbefore) hstep i with
      ⟨_,hsame⟩ | ⟨hpromoted,_,hview⟩ | ⟨_,k,hpromoted,hview,_⟩
    · rw [hsame]
      exact ih
    · rw [hview]
      intro heq
      exact (hranked.promoted_step hstep i ⟨_,List.mem_cons_self,hpromoted⟩).2 (leader_inj h heq)
    · rw [hview]
      intro heq
      exact (hranked.promoted k hpromoted).2 (leader_inj h heq)

structure Downward (launch : ι → Launch) (leader : ι) (s : Cluster ι) : Prop where
  charted : Charted launch s
  lists : ∀ i k, (s.leaf i).Lists (launch k).nodeId
  sent : ∀ p ∈ s.sent, ∀ m, p.msg = .localSyncSelfPromotion m → ∀ i,
    p.nodeIp = (launch i).nodeIp → p.nodePort = (launch i).nodePort →
      ∃ k, m.leaderNodeId = (launch k).nodeId ∧ (launch k).nodeId < (launch i).nodeId
  view : ∀ i, ∃ k, (s.leaf i).currentLeaderId = (launch k).nodeId.toInt32 ∧
    (k = i ∨ k = leader ∨ (launch k).nodeId < (launch i).nodeId)

theorem Downward.step (hbook : AddressBook launch) (h : Downward launch leader s) {e : Event ι}
    (hs : s.step e = some t) : Downward launch leader t where
  charted := h.charted.step hbook hs
  lists := fun i k => lists_step (h.lists i k) hs
  sent := by
    rcases step_cases hs with ⟨i,_,_,rfl⟩ | ⟨i,up,input,r,_,_,hr,rfl⟩
    · exact h.sent
    · refine List.forall_mem_append.mpr ⟨h.sent,fun p hp m hm j hip hport => ?_⟩
      exact ⟨i,promotion_lower hbook (h.charted.leaves i) hr hp hm hip hport⟩
  view := by
    intro i
    rcases turn_cases h.charted hs i with ⟨_,hview⟩ | ⟨_,_,hview⟩ |
      ⟨_,p,hp,m,hm,hip,hport,hview⟩
    · rw [hview]
      exact h.view i
    · exact ⟨i,hview,.inl rfl⟩
    · obtain ⟨k,hk,hlt⟩ := h.sent p hp m hm i hip hport
      exact ⟨k,by rw [hview,hk],.inr (.inr hlt)⟩

theorem Downward.restarted (h : OneLeader launch leader) (hbook : FullBook launch)
    (hdown : Downward launch leader s) (i : ι) (now : Int64) :
    Downward launch leader (s.restarted launch i now) where
  charted := ⟨restarted_leaf (charts_again hbook.toAddressBook i now) hdown.charted.leaves,
    hdown.charted.sent⟩
  lists := restarted_leaf (P:=fun _ a => ∀ k, a.Lists (launch k).nodeId)
    (fun k => lists_again hbook i k now) hdown.lists
  sent := hdown.sent
  view := restarted_leaf (P:=fun j a => ∃ k, a.currentLeaderId = (launch k).nodeId.toInt32 ∧
    (k = j ∨ k = leader ∨ (launch k).nodeId < (launch j).nodeId))
    ⟨leader,h.leaderId i,.inr (.inl rfl)⟩ hdown.view

theorem downward_of_run (h : OneLeader launch leader) (hbook : FullBook launch)
    {lives : List (Taken (Cluster ι) (Life ι))}
    (hrun : Run (lifeStep launch) (Cluster.launch launch) lives s) :
    Downward launch leader s := by
  apply hrun.invariant
  · exact ⟨charted_of_run hbook.toAddressBook .nil,lists_launch hbook,by simp [Cluster.launch],
      fun i => ⟨leader,h.leaderId i,.inr (.inl rfl)⟩⟩
  · intro s e t hdown hstep
    rcases lifeStep_cases hstep with ⟨e',rfl,hs⟩ | ⟨i,now,rfl,rfl⟩
    · exact hdown.step hbook.toAddressBook hs
    · exact hdown.restarted h hbook i now

end Cluster
end Kivi
