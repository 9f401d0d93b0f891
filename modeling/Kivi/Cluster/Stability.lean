import Kivi.Cluster.Election
import Kivi.Cluster.Snapshots

/-! The cluster while its leader is not given up: the roles stay as launched, and the leader
serves its clients as one cache, whatever the network does. -/
namespace Kivi

open Transition (Run Taken)
open RecencyCache (Assoc)
open RestController (acceptsPut redirectUrl)
open KiviLeaf (Holds)

/-- The address can stand in a `Location` header and in the text of an answer. -/
structure Launch.Linkable (a : Launch) : Prop where
  utf8 : Bytes.isUtf8 a.nodeIp = true
  header : a.nodeIp.all Fields.isInner = true

namespace Cluster

variable {ι : Type} [DecidableEq ι] {launch : ι → Launch} {leader : ι} {s t : Cluster ι}
  {history : List (Taken (Cluster ι) (Event ι))}

/-- If the step is a pass of a failure detector, it does not mark the watched leader dead. -/
def KeepsLeader (x : Taken (Cluster ι) (Event ι)) : Prop :=
  ∀ i up now promotedAt, x.event = .input i up (.detect now promotedAt) →
    ∀ n ∈ (x.pre.leaf i).localClusterNodes, n.nodeId = (x.pre.leaf i).localClusterLeader →
      PaxosNode.expires (x.pre.leaf i).nodeId now n = false

/-- Roles and leaders are as launched, and no promotion is under way. -/
structure Steady (launch : ι → Launch) (s : Cluster ι) : Prop where
  role : ∀ i, (s.leaf i).leafRole = (launch i).leafRole
  leaderId : ∀ i, (s.leaf i).currentLeaderId = (launch i).leaderId
  quiet : ∀ p ∈ s.sent, ∀ m, p.msg ≠ .localSyncSelfPromotion m

theorem Steady.step (h : Steady launch s) {e : Event ι} (hkeeps : KeepsLeader ⟨s,e,t⟩)
    (hs : s.step e = some t) : Steady launch t := by
  rcases step_cases hs with ⟨i,_,_,rfl⟩ | ⟨i,up,input,r,hreact,_,hr,rfl⟩
  · exact ⟨h.role,h.leaderId,h.quiet⟩
  have hreaction := KiviLeaf.react_reaction hr
  have hpass : ∀ now promotedAt table, input = .detect now promotedAt →
      ¬ (s.leaf i).PromotesInPass now table := by
    rintro now promotedAt table rfl ⟨before,w,after,hsplit,hexp,hw,_,_⟩
    obtain rfl := reaction_input hreact (by simp)
    have hkept := hkeeps i up now promotedAt rfl w (by simp [hsplit]) hw
    rw [hkept] at hexp
    cases hexp
  have helection : r.1.leafRole = (s.leaf i).leafRole ∧
      r.1.currentLeaderId = (s.leaf i).currentLeaderId := by
    rcases hreaction.election with hsame | ⟨now,promotedAt,table,hin,hp,_⟩ |
      ⟨m,clock,order,rfl,_⟩
    · exact hsame
    · exact absurd hp (hpass now promotedAt table hin)
    · obtain ⟨p,hp,hm⟩ := reaction_message hreact
      exact absurd hm (h.quiet p hp m)
  refine ⟨fun j => ?_,fun j => ?_,List.forall_mem_append.mpr ⟨h.quiet,fun p hp m hm => ?_⟩⟩
  · exact (reacted_same (f:=KiviLeaf.leafRole) helection.1 j).trans (h.role j)
  · exact (reacted_same (f:=KiviLeaf.currentLeaderId) helection.2 j).trans (h.leaderId j)
  · have hsends := hreaction.sends p hp
    rw [hm] at hsends
    obtain ⟨_,now,table,hin,hpass'⟩ := hsends
    exact hpass now _ table hin hpass'

theorem steady_of_run (hrun : Run step (Cluster.launch launch) history s)
    (hkeeps : ∀ x ∈ history, KeepsLeader x) : Steady launch s := by
  induction hrun with
  | nil => exact ⟨fun _ => rfl,fun _ => rfl,by simp [Cluster.launch]⟩
  | snoc _ hstep ih =>
    exact (ih fun x hx => hkeeps x (List.mem_cons_of_mem _ hx)).step
      (hkeeps _ List.mem_cons_self) hstep

theorem acceptsPut_view (h : OneLeader launch leader) {i k : ι}
    (hid : (s.leaf i).nodeId = (launch i).nodeId)
    (hview : (s.leaf i).currentLeaderId = (launch k).nodeId.toInt32) :
    acceptsPut (s.leaf i) = true ↔ i = k := by
  rw [acceptsPut,decide_eq_true_eq,hview,h.intRange,hid]
  exact h.distinct.eq_iff

theorem Steady.acceptsPut_iff (h : OneLeader launch leader)
    (hlast : ∀ i, (s.leaf i).Lasting (launch i)) (hs : Steady launch s) (i : ι) :
    acceptsPut (s.leaf i) = true ↔ i = leader :=
  acceptsPut_view h (hlast i).nodeId ((hs.leaderId i).trans (h.leaderId i))

def putUrl (launch : ι → Launch) (k : ι) : Bytes :=
  redirectUrl (PaxosNode.newEntry 0 (launch k).shared)

/-- Whoever puts at node `i` is redirected to the URL of node `k`, and nothing else happens. -/
def SendsTo (launch : ι → Launch) (s : Cluster ι) (i k : ι) : Prop :=
  ∀ up now key value, ∃ response,
    RestController.put up now key value (s.leaf i) = .ok (s.leaf i,[],response) ∧
    response.status = 307 ∧ response.location = some (putUrl launch k)

theorem put_of_view (h : OneLeader launch leader) (hbook : AddressBook launch)
    {i k : ι} (hcharts : Charts launch i (s.leaf i)) (hlists : (s.leaf i).Lists (launch k).nodeId)
    (hik : i ≠ k) (hview : (s.leaf i).currentLeaderId = (launch k).nodeId.toInt32)
    (up : Reachability) (now : Int64) (key value : Bytes) : ∃ response,
      RestController.put up now key value (s.leaf i) = .ok (s.leaf i,[],response) ∧
      response.location = Response.header (putUrl launch k) ∧
      (Bytes.isUtf8 (launch k).nodeIp = true → response.status = 307) := by
  obtain ⟨n,hn,hid⟩ := List.mem_map.mp hlists
  obtain ⟨e,he⟩ := (KiviLeaf.pointsTo_iff hview ⟨n,hn,hid⟩).mpr
    ((toInt32_toInt64_iff _).mp (h.intRange k))
  obtain ⟨k',hk,haddr,_⟩ := hcharts.entry (List.mem_append_left _ he.listed)
  obtain rfl : k' = k := hbook.ids (hk.symm.trans he.nodeId)
  obtain ⟨hip,hport⟩ := Prod.mk.inj haddr
  have hself : (s.leaf i).nodeId ≠ (launch k').nodeId := by
    rw [hcharts.nodeId]
    exact fun heq => hik (hbook.ids heq)
  obtain ⟨response,hput,hlocation,hstatus⟩ := he.redirected hself up now key value
  refine ⟨response,hput,?_,by rwa [hip] at hstatus⟩
  rw [hlocation]
  simp only [putUrl,redirectUrl,hip,hport,PaxosNode.newEntry,Launch.shared]

theorem sendsTo_of_view (h : OneLeader launch leader) (hbook : AddressBook launch)
    {i k : ι} (hlink : (launch k).Linkable) (hcharts : Charts launch i (s.leaf i))
    (hlists : (s.leaf i).Lists (launch k).nodeId) (hik : i ≠ k)
    (hview : (s.leaf i).currentLeaderId = (launch k).nodeId.toInt32) : SendsTo launch s i k := by
  intro up now key value
  obtain ⟨response,hput,hlocation,hstatus⟩ :=
    put_of_view h hbook hcharts hlists hik hview up now key value
  have hheader : Response.header (putUrl launch k) = some (putUrl launch k) :=
    RestController.header_redirectUrl hlink.header
  exact ⟨response,hput,hstatus hlink.utf8,hlocation.trans hheader⟩

theorem sendsTo_of_run (h : OneLeader launch leader) (hbook : FullBook launch)
    (hlinks : ∀ i, (launch i).Linkable) (hrun : Run step (Cluster.launch launch) history s)
    {i k : ι} (hik : i ≠ k) (hview : (s.leaf i).currentLeaderId = (launch k).nodeId.toInt32) :
    SendsTo launch s i k :=
  sendsTo_of_view h hbook.toAddressBook (hlinks k)
    ((charted_of_run hbook.toAddressBook hrun).leaves i) (lists_of_run hbook hrun i k) hik hview

/-- As long as no pass marks the leader dead, nobody's role changes, the leader alone takes writes,
and every other node sends its clients to the leader, as far as the header lets the address
through, without doing anything else. -/
theorem leader_stays {ι : Type} [DecidableEq ι] {launch : ι → Launch} {leader : ι}
    (h : OneLeader launch leader) (hbook : FullBook launch)
    {history : List (Taken (Cluster ι) (Event ι))} {s : Cluster ι}
    (hrun : Run step (Cluster.launch launch) history s) (hkeeps : ∀ x ∈ history, KeepsLeader x)
    (i : ι) :
    (s.leaf i).leafRole = (launch i).leafRole ∧ (acceptsPut (s.leaf i) = true ↔ i = leader) ∧
      (i ≠ leader → ∀ up now key value, ∃ response,
        RestController.put up now key value (s.leaf i) = .ok (s.leaf i,[],response) ∧
        response.location = Response.header (putUrl launch leader) ∧
        (Bytes.isUtf8 (launch leader).nodeIp = true → response.status = 307)) := by
  have hsteady := steady_of_run hrun hkeeps
  exact ⟨hsteady.role i,hsteady.acceptsPut_iff h (lasting_of_run h hrun) i,fun hi =>
    put_of_view h hbook.toAddressBook ((charted_of_run hbook.toAddressBook hrun).leaves i)
      (lists_of_run hbook hrun i leader) hi ((hsteady.leaderId i).trans (h.leaderId i))⟩

/-! ### The leader as one cache -/

/-- The reference cache after the requests the clients of the leader have made, in the order
they were handled. -/
def served (leader : ι) : List (Taken (Cluster ι) (Event ι)) → Assoc Bytes Bytes
  | [] => ∅
  | x::history =>
    match x.event with
    | .input i _ (.put key value _) =>
      if i = leader ∧ key ≠ [] ∧ value ≠ [] then
        RecencyCache.put 100 key value (served leader history) else served leader history
    | .input i _ (.get (some key)) =>
      if i = leader then (RecencyCache.get key (served leader history)).1 else served leader history
    | _ => served leader history

/-- The leader is not made to pull from itself by hand; the program never does. -/
def NoPull (leader : ι) (x : Taken (Cluster ι) (Event ι)) : Prop :=
  ∀ up, x.event ≠ .input leader up .pull

/-- Only the leader pushes, and it neither asks for data nor is answered. -/
structure Private (launch : ι → Launch) (leader : ι) (s : Cluster ι) : Prop where
  pushes : ∀ p ∈ s.sent, ∀ m, p.msg = .localSyncPush m → m.leaderNodeId = (launch leader).nodeId
  requests : ∀ p ∈ s.sent, ∀ m, p.msg = .localSyncRequest m →
    m.followerNodeId ≠ (launch leader).nodeId
  responses : ∀ p ∈ s.sent, ∀ m, p.msg = .localSyncResponse m →
    m.followerNodeId ≠ (launch leader).nodeId

structure Settled (launch : ι → Launch) (leader : ι) (s : Cluster ι) : Prop where
  steady : Steady launch s
  charted : Charted launch s
  listed : (s.leaf leader).Lists (launch leader).nodeId

omit [DecidableEq ι] in
theorem Settled.boot (hset : Settled launch leader s)
    (hown : (launch leader).leaderId = (launch leader).nodeId.toInt32)
    (hint : (launch leader).nodeId.toInt32.toInt64 = (launch leader).nodeId) (up : Reachability)
    (unset : Int64) : ((s.leaf leader).boot up unset).2 = [] := by
  obtain ⟨n,hn,hid⟩ := List.mem_map.mp hset.listed
  obtain ⟨e,he⟩ := (KiviLeaf.pointsTo_iff ((hset.steady.leaderId leader).trans hown)
    ⟨n,hn,hid⟩).mpr ((toInt32_toInt64_iff _).mp hint)
  have hself : (s.leaf leader).nodeId = e.nodeId := by
    rw [(hset.charted.leaves leader).nodeId,he.nodeId]
  simp [KiviLeaf.boot,he.lookup,hself]

theorem Private.step (h : OneLeader launch leader) (hset : Settled launch leader s)
    (hlast : ∀ i, (s.leaf i).Lasting (launch i)) (hp : Private launch leader s) {e : Event ι}
    (hnopull : NoPull leader ⟨s,e,t⟩) (hs : s.step e = some t) : Private launch leader t := by
  rcases step_cases hs with ⟨i,_,_,rfl⟩ | ⟨i,up,input,r,hreact,_,hr,rfl⟩
  · exact ⟨hp.pushes,hp.requests,hp.responses⟩
  have hsends := (KiviLeaf.react_reaction hr).sends
  refine ⟨List.forall_mem_append.mpr ⟨hp.pushes,fun p hpr m hm => ?_⟩,
    List.forall_mem_append.mpr ⟨hp.requests,fun p hpr m hm hself => ?_⟩,
    List.forall_mem_append.mpr ⟨hp.responses,fun p hpr m hm => ?_⟩⟩
  · have hsend := hsends p hpr
    rw [hm] at hsend
    obtain ⟨hid,_,hacc,_⟩ := hsend
    rw [hid,(hlast i).nodeId,(hset.steady.acceptsPut_iff h hlast i).mp hacc]
  · have hsend := hsends p hpr
    rw [hm] at hsend
    have hid : (launch i).nodeId = (launch leader).nodeId := by
      rw [← (hlast i).nodeId,← hself]
      exact hsend.symm
    obtain rfl : i = leader := h.distinct hid
    have hpulls := KiviLeaf.pulls_of_react hr hpr hm
    cases input with
    | boot unset =>
      obtain rfl := Except.ok.inj hr
      rw [hset.boot (h.leaderId i) (h.intRange i)] at hpr
      simp at hpr
    | pull => exact hnopull up (reaction_input hreact (by simp))
    | message msg clock order =>
      cases msg with
      | localSyncSelfPromotion res =>
        obtain ⟨q,hq,hqm⟩ := reaction_message hreact
        exact hset.steady.quiet q hq res hqm
      | _ => exact hpulls
    | _ => exact hpulls
  · obtain ⟨req,clock,order,rfl,_,hfollower,_⟩ := KiviLeaf.answers_of_react hr hpr hm
    obtain ⟨q,hq,hqm⟩ := reaction_message hreact
    rw [hfollower]
    exact hp.requests q hq req hqm

theorem Private.writes (h : OneLeader launch leader) (hset : Settled launch leader s)
    (hp : Private launch leader s) {e : Event ι} {up : Reachability} {msg : Message} {clock : Clock}
    {order : HashOrder} (hreact : s.reaction e = some (leader,up,.message msg clock order)) :
    (Input.message msg clock order).writes (s.leaf leader) = [] := by
  have hmeant := hset.charted.handled hreact
  obtain ⟨p,hps,hm⟩ := reaction_message hreact
  cases msg with
  | localSyncPush m =>
    obtain ⟨j,hj,hid⟩ := hmeant
    rw [hp.pushes p hps m hm] at hid
    exact absurd (h.distinct hid).symm hj
  | localSyncResponse m => exact absurd hmeant.1 (hp.responses p hps m hm)
  | _ => rfl

/-- A reaction of the leader changes its cache as the request says, and the other nodes do not
change it. -/
theorem served_cons {e : Event ι} {i : ι} {up : Reachability} {input : Input}
    (hreact : s.reaction e = some (i,up,input))
    (hcap : (s.leaf leader).kivi.engine.capacity = 100)
    (hacc : acceptsPut (s.leaf leader) = true)
    (hquiet : i = leader → ∀ msg clock order, input = .message msg clock order →
      input.writes (s.leaf i) = []) :
    served leader (⟨s,e,t⟩ :: history) =
      if i = leader then input.cacheAfter (s.leaf i) (served leader history)
      else served leader history := by
  have hplain : input.writes (s.leaf i) = [] → (∀ key, input ≠ .get (some key)) →
      input.cacheAfter (s.leaf i) (served leader history) = served leader history := by
    intro hwrites hget
    unfold Input.cacheAfter
    split
    · exact absurd rfl (hget _)
    · rw [hwrites,RecencyCache.putAll]
  rcases reaction_cases hreact with ⟨rfl,hnot⟩ | ⟨n,p,clock,order,rfl,_,_,_,rfl⟩
  · cases input with
    | put key value now =>
      by_cases hi : i = leader
      · subst i
        by_cases hkv : key ≠ [] ∧ value ≠ []
        · simp [served,Input.cacheAfter,Input.writes,RecencyCache.putAll,hacc,hkv,hcap]
        · simp [served,Input.cacheAfter,Input.writes,RecencyCache.putAll,hkv]
      · simp [served,hi]
    | get key =>
      cases key with
      | none => simp [served,hplain rfl (by simp)]
      | some key => rfl
    | message msg clock order => exact absurd rfl (hnot msg clock order)
    | _ => simp [served,Input.cacheAfter,Input.writes,RecencyCache.putAll]
  · have hserved : served leader (⟨s,.deliver i up n clock order,t⟩ :: history) =
        served leader history := rfl
    by_cases hi : i = leader
    · rw [hserved,if_pos hi,hplain (hquiet hi _ _ _ rfl) (by simp)]
    · rw [hserved,if_neg hi]

structure Serves (launch : ι → Launch) (leader : ι)
    (history : List (Taken (Cluster ι) (Event ι))) (s : Cluster ι) : Prop where
  closed : Private launch leader s
  capacity : (s.leaf leader).kivi.engine.capacity = 100
  store : (s.leaf leader).kivi.engine.Represents (served leader history)

theorem Serves.step (h : OneLeader launch leader) (hset : Settled launch leader s)
    (hlast : ∀ i, (s.leaf i).Lasting (launch i)) (hserves : Serves launch leader history s)
    {e : Event ι} (hnopull : NoPull leader ⟨s,e,t⟩) (hs : s.step e = some t) :
    Serves launch leader (⟨s,e,t⟩ :: history) t := by
  have hprivate := hserves.closed.step h hset hlast hnopull hs
  rcases step_cases hs with ⟨i,rfl,_,rfl⟩ | ⟨i,up,input,r,hreact,_,hr,rfl⟩
  · exact ⟨hprivate,hserves.capacity,hserves.store⟩
  have hacc := (hset.steady.acceptsPut_iff h hlast leader).mpr rfl
  by_cases hi : i = leader
  · subst i
    have hcons : served leader (⟨s,e,s.reacted leader r⟩ :: history) =
        if leader = leader then input.cacheAfter (s.leaf leader) (served leader history)
        else served leader history := by
      refine served_cons hreact hserves.capacity hacc fun _ msg clock order hin => ?_
      subst hin
      exact hserves.closed.writes h hset hreact
    have hafter := KiviLeaf.represents_of_react (by rw [hserves.capacity]; decide)
      hserves.store hr
    refine ⟨hprivate,?_,?_⟩
    · rw [reacted_self]
      exact hafter.1.trans hserves.capacity
    · rw [reacted_self,hcons,if_pos rfl]
      exact hafter.2
  · have hcons : served leader (⟨s,e,s.reacted i r⟩ :: history) =
        if i = leader then input.cacheAfter (s.leaf i) (served leader history)
        else served leader history :=
      served_cons hreact hserves.capacity hacc fun heq => absurd heq hi
    refine ⟨hprivate,?_,?_⟩
    · rw [reacted_ne (Ne.symm hi)]
      exact hserves.capacity
    · rw [reacted_ne (Ne.symm hi),hcons,if_neg hi]
      exact hserves.store

theorem serves_of_run (h : OneLeader launch leader) (hbook : FullBook launch)
    (hrun : Run step (Cluster.launch launch) history s) (hkeeps : ∀ x ∈ history, KeepsLeader x)
    (hnopull : ∀ x ∈ history, NoPull leader x) : Serves launch leader history s := by
  induction hrun with
  | nil =>
    exact ⟨⟨by simp [Cluster.launch],by simp [Cluster.launch],by simp [Cluster.launch]⟩,rfl,
      LRUStore.represents_new 100⟩
  | @snoc history s e t hrun hstep ih =>
    have hkeeps' : ∀ x ∈ history, KeepsLeader x := fun x hx => hkeeps x (List.mem_cons_of_mem _ hx)
    have hset : Settled launch leader s := ⟨steady_of_run hrun hkeeps',
      charted_of_run hbook.toAddressBook hrun,lists_of_run hbook hrun leader leader⟩
    exact (ih hkeeps' fun x hx => hnopull x (List.mem_cons_of_mem _ hx)).step h hset
      (lasting_of_run h hrun) (hnopull _ List.mem_cons_self) hstep

/-- As long as no pass marks the leader dead, the leader's store is the cache its own clients
have made with their requests, in the order they were handled: whatever messages are lost,
repeated or delayed, and whatever the other nodes do, `GET` at the leader answers from it. -/
theorem leader_serves {ι : Type} [DecidableEq ι] {launch : ι → Launch} {leader : ι}
    (h : OneLeader launch leader) (hbook : FullBook launch)
    {history : List (Taken (Cluster ι) (Event ι))} {s : Cluster ι}
    (hrun : Run step (Cluster.launch launch) history s) (hkeeps : ∀ x ∈ history, KeepsLeader x)
    (hnopull : ∀ x ∈ history, NoPull leader x) :
    (∀ k, (s.leaf leader).kivi.getKvBatch.lookup k = (served leader history).lookup k) ∧
      ∀ k, ∃ kivi, (s.leaf leader).kivi.get k =
        .ok (kivi,(RecencyCache.get k (served leader history)).2) := by
  have hstore := (serves_of_run h hbook hrun hkeeps hnopull).store
  refine ⟨hstore.lookup,fun k => ?_⟩
  obtain ⟨engine,hget,_⟩ := LRUStore.get_spec hstore k
  exact ⟨⟨engine⟩,by simp only [KiviTree.get,hget,except_bind_ok,except_pure]⟩

/-! ### A pass in time -/

theorem pass_keeps : ∀ n ∈ ((Cluster.launch trio).leaf secondNode).localClusterNodes,
    n.nodeId = ((Cluster.launch trio).leaf secondNode).localClusterLeader →
      PaxosNode.expires ((Cluster.launch trio).leaf secondNode).nodeId 10000 n = false := by
  decide +kernel

theorem trio_steady : ∃ history s, Run step (Cluster.launch trio) history s ∧
    (∀ x ∈ history, KeepsLeader x) ∧ (∀ x ∈ history, NoPull firstNode x) ∧
    history.length = 2 ∧ (served firstNode history).lookup [0x6B] = some [0x76] := by
  have hend : ((step (Cluster.launch trio) (.input secondNode reachable (.detect 10000 10000))).any
      fun t => (step t (.input firstNode reachable (.put [0x6B] [0x76] 10001))).isSome) = true := by
    decide +kernel
  cases hpass : step (Cluster.launch trio) (.input secondNode reachable (.detect 10000 10000)) with
  | none => simp [hpass] at hend
  | some t =>
    rw [hpass,Option.any_some] at hend
    obtain ⟨s,hput⟩ := Option.isSome_iff_exists.mp hend
    refine ⟨_,s,(Run.nil.snoc hpass).snoc hput,?_,?_,rfl,rfl⟩
    · refine List.forall_mem_cons.mpr ⟨?_,List.forall_mem_cons.mpr ⟨?_,List.forall_mem_nil _⟩⟩
      · intro i up now promotedAt he
        cases he
      · intro i up now promotedAt he
        obtain ⟨rfl,rfl,hin⟩ := Event.input.inj he
        obtain ⟨rfl,rfl⟩ := Input.detect.inj hin
        exact pass_keeps
    · refine List.forall_mem_cons.mpr ⟨?_,List.forall_mem_cons.mpr ⟨?_,List.forall_mem_nil _⟩⟩
      · intro up he
        cases he
      · intro up he
        cases he

theorem leader_stays_trio : ∃ s : Cluster (Fin 3), acceptsPut (s.leaf firstNode) = true ∧
    ∃ response, RestController.put reachable 0 [] [] (s.leaf secondNode) =
      .ok (s.leaf secondNode,[],response) ∧ response.status = 307 := by
  obtain ⟨history,s,hrun,hkeeps,_⟩ := trio_steady
  have hfirst := leader_stays trio_oneLeader trio_fullBook hrun hkeeps firstNode
  have hsecond := leader_stays trio_oneLeader trio_fullBook hrun hkeeps secondNode
  obtain ⟨response,hput,_,hstatus⟩ := hsecond.2.2 (by decide) reachable 0 [] []
  exact ⟨s,hfirst.2.1.mpr rfl,response,hput,hstatus (by decide)⟩

theorem leader_serves_trio : ∃ history s, Run step (Cluster.launch trio) history s ∧
    (s.leaf firstNode).kivi.getKvBatch.lookup [0x6B] = some [0x76] := by
  obtain ⟨history,s,hrun,hkeeps,hnopull,_,hserved⟩ := trio_steady
  have hlook := (leader_serves trio_oneLeader trio_fullBook hrun hkeeps hnopull).1 [0x6B]
  exact ⟨history,s,hrun,hlook.trans hserved⟩

end Cluster
end Kivi
