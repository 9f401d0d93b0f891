import Kivi.Library.Numeral
import Kivi.Server.TextServer
import Kivi.Cluster.Heartbeats

/-! How a node is started, and what its command line leaves fixed for the whole run. -/
namespace Kivi

open Bytes (ofString)
open Json (Stops writeInteger)
open Transition (Run Taken)
open RestController (acceptsPut)

/-- How `main` ends before there is a node: with the usage text or an exception of `std::stoi`. -/
inductive StartError
  | usage
  | invalidArgument
  | outOfRange
  deriving DecidableEq

/-- `std::stoi` with base ten. -/
def stoi (str : Bytes) : Except StartError Int32 :=
  match Numeral.read isspace str with
  | none => .error .invalidArgument
  | some n => if -2^31 ≤ n ∧ n < 2^31 then .ok (.ofInt n) else .error .outOfRange

def predefined : List PaxosNodeSharableDescriptor :=
  [⟨10000,ofString "127.0.0.1",5000⟩,⟨10001,ofString "127.0.0.1",5001⟩,
    ⟨10002,ofString "127.0.0.1",5002⟩]

/-- `main` up to the call of `run`. The first argument is the name of the program; further
arguments are ignored. -/
def main (argv : List Bytes) (registeredAt : Int64) (currentLeader : PaxosNodeDescriptor)
    (lastSyncTime : Int64) : Except StartError Launch :=
  match argv with
  | _::nodeId::nodeIp::nodePort::leafRole::isProposer::leaderId::_ => do
    let nodeId ← stoi nodeId
    let nodePort ← stoi nodePort
    let leafRole ← stoi leafRole
    let isProposer ← stoi isProposer
    let leaderId ← stoi leaderId
    return {
      nodeId := nodeId.toInt64
      nodeIp
      nodePort
      leafRole
      isProposer := decide (isProposer = 1)
      leaderId
      cluster := predefined
      registeredAt
      watched := 10000
      currentLeader
      lastSyncTime }
  | _ => .error .usage

/-- Some command line starts the node. Its arguments are C strings. -/
def Launch.Commanded (a : Launch) : Prop := ∃ argv : List Bytes, (∀ arg ∈ argv, 0 ∉ arg) ∧
  main argv a.registeredAt a.currentLeader a.lastSyncTime = .ok a

def Launch.commandLine (name : Bytes) (a : Launch) : List Bytes :=
  [name,writeInteger a.nodeId.toInt,a.nodeIp,writeInteger a.nodePort.toInt,
    writeInteger a.leafRole.toInt,writeInteger (if a.isProposer then 1 else 0),
    writeInteger a.leaderId.toInt]

theorem blanks_isspace : Numeral.Blanks isspace where
  minus := by decide
  plus := by decide
  digit := by
    intro b hb
    have hdigit : 0x30 ≤ b ∧ b ≤ 0x39 := of_decide_eq_true hb
    simp only [isspace,Bool.or_eq_false_iff,beq_eq_false_iff_ne,ne_eq,Bool.and_eq_false_iff,
      decide_eq_false_iff_not]
    grind

/-- What an `int` is written as is read back, with blanks in front and any text behind that
does not go on with a digit. -/
theorem stoi_writeInteger {before rest : Bytes} (hbefore : ∀ b ∈ before, isspace b = true)
    (hr : Stops rest) (n : Int32) :
    stoi (before ++ writeInteger n.toInt ++ rest) = .ok n := by
  have hle := Int32.le_toInt n
  have hlt := Int32.toInt_lt n
  rw [stoi,Numeral.read_writeInteger blanks_isspace hbefore _ hr]
  simp only [if_pos (And.intro hle hlt),Int32.ofInt_toInt]

theorem stoi_written (n : Int32) : stoi (writeInteger n.toInt) = .ok n := by
  have hread : stoi ([] ++ writeInteger n.toInt ++ []) = .ok n :=
    stoi_writeInteger (by simp) (fun _ _ h => by simp at h) n
  simpa using hread

theorem main_commandLine {a : Launch} (hid : InInt a.nodeId) (hcluster : a.cluster = predefined)
    (hwatched : a.watched = 10000) (name : Bytes) (more : List Bytes) :
    main (a.commandLine name ++ more) a.registeredAt a.currentLeader a.lastSyncTime = .ok a := by
  have hint := (toInt32_toInt64_iff a.nodeId).mpr hid
  have hstoi : stoi (writeInteger a.nodeId.toInt) = .ok a.nodeId.toInt32 := by
    have hwritten := stoi_written a.nodeId.toInt32
    rwa [← Int32.toInt_toInt64,hint] at hwritten
  have hflag : ∃ n : Int32, stoi (writeInteger (if a.isProposer then 1 else 0)) = .ok n ∧
      decide (n = 1) = a.isProposer := by
    cases a.isProposer with
    | true => exact ⟨1,stoi_written 1,rfl⟩
    | false => exact ⟨0,stoi_written 0,rfl⟩
  obtain ⟨n,hn,hflag⟩ := hflag
  simp only [Launch.commandLine,List.cons_append,main,hstoi,stoi_written,hn,except_bind_ok,
    except_pure,hint,hflag,← hcluster,← hwatched]

theorem main_cases {argv : List Bytes} {registeredAt : Int64} {currentLeader : PaxosNodeDescriptor}
    {lastSyncTime : Int64} {a : Launch} (hargs : ∀ arg ∈ argv, 0 ∉ arg)
    (h : main argv registeredAt currentLeader lastSyncTime = .ok a) :
    InInt a.nodeId ∧ 0 ∉ a.nodeIp ∧ a.cluster = predefined ∧ a.watched = 10000 := by
  unfold main at h
  split at h
  · rename_i _ nodeId nodeIp _ _ _ _ _
    obtain ⟨id,_,h⟩ := except_bind_eq_ok.mp h
    obtain ⟨port,_,h⟩ := except_bind_eq_ok.mp h
    obtain ⟨role,_,h⟩ := except_bind_eq_ok.mp h
    obtain ⟨proposer,_,h⟩ := except_bind_eq_ok.mp h
    obtain ⟨leader,_,h⟩ := except_bind_eq_ok.mp h
    obtain rfl := Except.ok.inj h
    refine ⟨(toInt32_toInt64_iff _).mp ?_,hargs nodeIp (by simp),rfl,rfl⟩
    change id.toInt64.toInt32.toInt64 = id.toInt64
    rw [Int32.toInt32_toInt64]
  · cases h

theorem Launch.Commanded.facts {a : Launch} (h : a.Commanded) :
    InInt a.nodeId ∧ 0 ∉ a.nodeIp ∧ a.cluster = predefined ∧ a.watched = 10000 := by
  obtain ⟨argv,hargs,h⟩ := h
  exact main_cases hargs h

theorem commanded_of {a : Launch} (hid : InInt a.nodeId) (hip : 0 ∉ a.nodeIp)
    (hcluster : a.cluster = predefined) (hwatched : a.watched = 10000) : a.Commanded := by
  have hmain := main_commandLine hid hcluster hwatched (ofString "./kivitree") []
  have hwritten : ∀ n, (0 : UInt8) ∉ writeInteger n := fun n hn =>
    (Json.writeInteger_digit hn).1 rfl
  refine ⟨a.commandLine (ofString "./kivitree") ++ [],?_,hmain⟩
  simp only [Launch.commandLine,List.append_nil,List.forall_mem_cons]
  exact ⟨by decide,hwritten _,hip,hwritten _,hwritten _,hwritten _,hwritten _,by simp⟩

/-- The nodes that some command line starts are those whose id is in the range of an `int` and
whose address is a C string, registered with the predefined cluster and watching 10000; every
`int` can be named on one, since `std::stoi` reads back what is written in decimal. -/
theorem commanded_iff (a : Launch) :
    (a.Commanded ↔
      InInt a.nodeId ∧ 0 ∉ a.nodeIp ∧ a.cluster = predefined ∧ a.watched = 10000) ∧
    ∀ n : Int32, stoi (writeInteger n.toInt) = .ok n := by
  refine ⟨⟨Launch.Commanded.facts,?_⟩,stoi_written⟩
  rintro ⟨hid,hip,hcluster,hwatched⟩
  exact commanded_of hid hip hcluster hwatched

namespace PaxosNode

theorem mem_refresh {msg : HeartBeatMessage} {ns ns' : List PaxosNodeDescriptor}
    {n : PaxosNodeDescriptor} (h : refresh msg ns = some ns') (hn : n ∈ ns')
    (hid : n.nodeId ≠ msg.nodeId) : n ∈ ns := by
  induction ns generalizing ns' with
  | nil => simp [refresh] at h
  | cons m ns ih =>
    rw [refresh] at h
    by_cases hm : m.nodeId = msg.nodeId
    · rw [if_pos hm,Option.some.injEq] at h
      subst ns'
      rcases List.mem_cons.mp hn with rfl | hn
      · exact absurd hm hid
      · exact List.mem_cons_of_mem _ hn
    · rw [if_neg hm,Option.map_eq_some_iff] at h
      obtain ⟨ms,hms,rfl⟩ := h
      rcases List.mem_cons.mp hn with rfl | hn
      · exact List.mem_cons_self
      · exact List.mem_cons_of_mem _ (ih hms hn)

theorem mem_receiveHeartBeat {now : Int64} {msg : HeartBeatMessage} {s : PaxosNode}
    {n : PaxosNodeDescriptor} (hn : n ∈ (s.receiveHeartBeat now msg).localClusterNodes)
    (hid : n.nodeId ≠ msg.nodeId) : n ∈ s.localClusterNodes := by
  unfold receiveHeartBeat updateLastSeen at hn
  cases hglobal : refresh msg s.clusterNodes with
  | some ns => simpa [hglobal] using hn
  | none =>
    cases hlocal : refresh msg s.localClusterNodes with
    | some ns =>
      simp only [hglobal,hlocal,Option.map_some] at hn
      exact mem_refresh hlocal hn hid
    | none =>
      simp only [hglobal,hlocal,Option.map_none,addNewNode] at hn
      split at hn
      · exact hn
      · rcases List.mem_append.mp hn with hn | hn
        · exact hn
        · exact absurd (congrArg PaxosNodeDescriptor.nodeId (List.mem_singleton.mp hn)) hid

end PaxosNode

namespace KiviLeaf

variable {s : KiviLeaf} {id : Int64}

/-- No entry with this id is marked alive. -/
def GivenUp (id : Int64) (s : KiviLeaf) : Prop :=
  ∀ n ∈ s.localClusterNodes, n.nodeId = id → n.isAlive = false

theorem GivenUp.pass (h : GivenUp id s) (hself : s.nodeId ≠ id) {r : KiviLeaf} {now : Int64}
    (htable : r.localClusterNodes = s.localClusterNodes.map (PaxosNode.detectEntry s.nodeId now)) :
    GivenUp id r := by
  intro n hn hid
  rw [htable] at hn
  obtain ⟨m,hm,rfl⟩ := List.mem_map.mp hn
  rw [PaxosNode.detectEntry_nodeId] at hid
  rw [← Bool.not_eq_true]
  intro halive
  have hold := PaxosNode.isAlive_of_detectEntry (fun heq => hself (heq.symm.trans hid)) halive
  rw [h m hm hid] at hold
  cases hold

theorem GivenUp.react (h : GivenUp id s) (hself : s.nodeId ≠ id) {up : Reachability}
    {input : Input} {r : KiviLeaf × List Packet} (hr : s.react up input = .ok r)
    (hheard : ∀ m clock order, input = .message (.heartBeat m) clock order → m.nodeId ≠ id) :
    GivenUp id r.1 := by
  rcases react_tables hr with ⟨m,clock,order,hin,hnode⟩ | ⟨now,_,_,hnode⟩ | ⟨_,_,hnode⟩
  · intro n hn hid
    rw [hnode] at hn
    refine h n (PaxosNode.mem_receiveHeartBeat hn fun heq => ?_) hid
    exact hheard m clock order hin (heq.symm.trans hid)
  · exact h.pass hself (congrArg PaxosNode.localClusterNodes hnode)
  · intro n hn hid
    rw [hnode] at hn
    exact h n hn hid

end KiviLeaf

namespace Cluster

variable {ι : Type} [DecidableEq ι] {launch : ι → Launch} {s t : Cluster ι}
  {history : List (Taken (Cluster ι) (Event ι))}

theorem commanded_lasting (h : ∀ i, (launch i).Commanded)
    (hrun : Run step (Cluster.launch launch) history s) (i : ι) :
    (s.leaf i).Lasting (launch i) := by
  have h₀ : ((Cluster.launch launch).leaf i).Lasting (launch i) := by
    apply KiviLeaf.lasting_launch
    rw [(h i).facts.2.2.1]
    decide
  exact hrun.invariant (I:=fun s => (s.leaf i).Lasting (launch i)) h₀ fun _ _ _ hs hstep =>
    leaf_step (fun _ _ _ _ hP hr => hP.react hr) hstep i hs

/-! ### Ids -/

theorem promotions_of_run (h : ∀ i, (launch i).Commanded)
    (hrun : Run step (Cluster.launch launch) history s) :
    ∀ p ∈ s.sent, ∀ m, p.msg = .localSyncSelfPromotion m → InInt m.leaderNodeId := by
  induction hrun with
  | nil => simp [Cluster.launch]
  | @snoc history s e t hrun hstep ih =>
    rcases step_cases hstep with ⟨i,_,_,rfl⟩ | ⟨i,up,input,r,_,_,hr,rfl⟩
    · exact ih
    · refine List.forall_mem_append.mpr ⟨ih,fun p hp m hm => ?_⟩
      have hsends := (KiviLeaf.react_reaction hr).sends p hp
      rw [hm] at hsends
      rw [hsends.1,(commanded_lasting h hrun i).nodeId]
      exact (h i).facts.1

/-- Elections lose no id: a node that has promoted itself takes writes, and a node that handles
the promotion of a node it lists points to this node. -/
theorem elections_keep_ids {ι : Type} [DecidableEq ι] {launch : ι → Launch}
    (h : ∀ i, (launch i).Commanded) {history : List (Taken (Cluster ι) (Event ι))}
    {s : Cluster ι} (hrun : Run step (Cluster.launch launch) history s)
    {x : Taken (Cluster ι) (Event ι)} (hx : x ∈ history) (i : ι) :
    (PromotedIn x i → acceptsPut (x.post.leaf i) = true) ∧
      ∀ up m clock order,
        x.pre.reaction x.event = some (i,up,.message (.localSyncSelfPromotion m) clock order) →
        (x.pre.leaf i).Lists m.leaderNodeId →
          ∃ n, KiviLeaf.PointsTo m.leaderNodeId (x.post.leaf i) n := by
  obtain ⟨hstep,before,hbefore,_⟩ := hrun.taken_step hx
  constructor
  · rintro ⟨up,now,promotedAt,table,hevent,hpass⟩
    rw [hevent] at hstep
    rw [detect_post hstep]
    rcases KiviLeaf.detectFailures_spec up now promotedAt (x.pre.leaf i) with ⟨_,_,hr⟩ | ⟨hnot,_⟩
    · rw [hr]
      apply (KiviLeaf.acceptsPut_promoted _).mpr
      change InInt (x.pre.leaf i).nodeId
      rw [(commanded_lasting h hbefore i).nodeId]
      exact (h i).facts.1
    · exact absurd hpass (hnot table)
  · intro up m clock order hreact hlists
    rcases step_cases hstep with ⟨j,hcrash,_⟩ | ⟨j,up',input,r,hreact',_,hr,hpost⟩
    · rw [hcrash] at hreact
      cases hreact
    rw [hreact,Option.some.injEq] at hreact'
    obtain ⟨rfl,rfl,rfl⟩ := hreact'
    obtain ⟨p,hp,hm⟩ := reaction_message hreact
    obtain rfl := Except.ok.inj hr
    rw [hpost,reacted_self]
    obtain ⟨n,hn,hid⟩ := List.mem_map.mp hlists
    exact (KiviLeaf.pointsTo_iff (s:=(x.pre.leaf i).followLeader m.leaderNodeId clock.now) rfl
      ⟨n,hn,hid⟩).mpr (promotions_of_run h hbefore p hp m hm)

theorem trio_commanded (k : Fin 3) : (trio k).Commanded := by
  refine commanded_of ?_ ?_ rfl rfl
  · revert k
    unfold InInt
    decide
  · revert k
    decide

/-- The third node hears that the second one has promoted itself. -/
theorem elections_keep_ids_trio : ∃ history s, Run step (Cluster.launch trio) history s ∧
    ∃ x ∈ history, ∃ up m clock order, x.pre.reaction x.event =
      some (thirdNode,up,.message (.localSyncSelfPromotion m) clock order) ∧
        ∃ n, KiviLeaf.PointsTo m.leaderNodeId (x.post.leaf thirdNode) n := by
  obtain ⟨history,s,hrun,x,hx,up,m,clock,order,hreact⟩ := trio_promotion
  obtain ⟨_,before,hbefore,_⟩ := hrun.taken_step hx
  obtain ⟨j,_,hid⟩ := (charted_of_run trio_addressBook hbefore).handled hreact
  have hlists := lists_of_run trio_fullBook hbefore thirdNode j
  rw [← hid] at hlists
  exact ⟨history,s,hrun,x,hx,up,m,clock,order,hreact,
    (elections_keep_ids trio_commanded hrun hx thirdNode).2 up m clock order hreact hlists⟩

/-! ### The watch -/

def MarksDead (i : ι) (id : Int64) (x : Taken (Cluster ι) (Event ι)) : Prop :=
  ∃ up now promotedAt, x.event = .input i up (.detect now promotedAt) ∧
    ∃ n ∈ (x.pre.leaf i).localClusterNodes, n.nodeId = id ∧
      PaxosNode.expires (x.pre.leaf i).nodeId now n = true

omit [DecidableEq ι] in
theorem keepsLeader_of_watched {id : Int64} {x : Taken (Cluster ι) (Event ι)}
    (hwatched : ∀ i, (x.pre.leaf i).localClusterLeader = id) (h : ∀ i, ¬ MarksDead i id x) :
    KeepsLeader x := by
  intro i up now promotedAt he n hn hid
  rw [← Bool.not_eq_true]
  exact fun hexp => h i ⟨up,now,promotedAt,he,n,hn,hid.trans (hwatched i),hexp⟩

theorem commanded_watched (h : ∀ i, (launch i).Commanded)
    (hrun : Run step (Cluster.launch launch) history s) (i : ι) :
    (s.leaf i).localClusterLeader = 10000 := by
  rw [(commanded_lasting h hrun i).watched,(h i).facts.2.2.2]

/-- Every node watches 10000, whatever leader its command line names: until a pass marks the
entry of 10000 dead, no node changes its role or its leader and none is promoted, and a node
takes writes exactly when its command line names it the leader, whichever nodes have crashed. -/
theorem no_takeover {ι : Type} [DecidableEq ι] {launch : ι → Launch}
    (h : ∀ i, (launch i).Commanded) {history : List (Taken (Cluster ι) (Event ι))}
    {s : Cluster ι} (hrun : Run step (Cluster.launch launch) history s)
    (halive : ∀ x ∈ history, ∀ i, ¬ MarksDead i 10000 x) :
    (∀ i, (s.leaf i).leafRole = (launch i).leafRole ∧
      (s.leaf i).currentLeaderId = (launch i).leaderId ∧
      (acceptsPut (s.leaf i) = true ↔ (launch i).nodeId = (launch i).leaderId.toInt64)) ∧
    ∀ p ∈ s.sent, ∀ m, p.msg ≠ .localSyncSelfPromotion m := by
  have hsteady := steady_of_run hrun fun x hx => by
    obtain ⟨_,before,hbefore,_⟩ := hrun.taken_step hx
    exact keepsLeader_of_watched (commanded_watched h hbefore) (halive x hx)
  refine ⟨fun i => ⟨hsteady.role i,hsteady.leaderId i,?_⟩,hsteady.quiet⟩
  rw [acceptsPut,decide_eq_true_eq,hsteady.leaderId i,(commanded_lasting h hrun i).nodeId]

def HearsFrom (i : ι) (id : Int64) (x : Taken (Cluster ι) (Event ι)) : Prop :=
  ∃ m, heardBy i x = some m ∧ m.nodeId = id

theorem givenUp_step {e : Event ι} {i : ι} {id : Int64} (h : (s.leaf i).GivenUp id)
    (hself : (s.leaf i).nodeId ≠ id) (hs : s.step e = some t) (hheard : ¬ HearsFrom i id ⟨s,e,t⟩) :
    (t.leaf i).GivenUp id := by
  rcases step_cases hs with ⟨_,_,_,rfl⟩ | ⟨j,up,input,r,hreact,_,hr,rfl⟩
  · exact h
  by_cases hij : i = j
  · subst j
    rw [reacted_self]
    refine h.react hself hr fun m clock order hin hm => hheard ⟨m,?_,hm⟩
    subst hin
    exact heardBy_eq_some.mpr ⟨up,clock,order,hreact⟩
  · rwa [reacted_ne hij]

theorem MarksDead.givenUp {x : Taken (Cluster ι) (Event ι)} {i : ι} {id : Int64}
    (h : MarksDead i id x) (hs : x.pre.step x.event = some x.post)
    (hnodup : ((x.pre.leaf i).localClusterNodes.map PaxosNodeDescriptor.nodeId).Nodup) :
    (x.pre.leaf i).nodeId ≠ id ∧ (x.post.leaf i).GivenUp id := by
  obtain ⟨up,now,promotedAt,he,w,hw,hid,hexp⟩ := h
  obtain ⟨hself,hexpired,halive⟩ := (PaxosNode.expires_iff w).mp hexp
  refine ⟨fun heq => hself (hid.trans heq.symm),fun n hn hnid => ?_⟩
  rw [he] at hs
  rw [detect_post hs,KiviLeaf.detectFailures_tables] at hn
  obtain ⟨m,hm,rfl⟩ := List.mem_map.mp hn
  rw [PaxosNode.detectEntry_nodeId] at hnid
  have hmw : m = w := List.inj_on_of_nodup_map hnodup hm hw (hnid.trans hid.symm)
  subst m
  simp [PaxosNode.detectEntry,hself,hexpired,halive]

/-- A node that has given another one up hears from it before it marks it alive. -/
theorem givenUp_of_run (h : ∀ i, (launch i).Commanded)
    {before between : List (Taken (Cluster ι) (Event ι))} {x : Taken (Cluster ι) (Event ι)} {i : ι}
    {id : Int64} (hself : (launch i).nodeId ≠ id) (hdead : (x.post.leaf i).GivenUp id)
    (hrun : Run step (Cluster.launch launch) (between ++ x :: before) s)
    (hnot : ∀ z ∈ between, ¬ HearsFrom i id z) : (s.leaf i).GivenUp id := by
  induction between generalizing s with
  | nil =>
    rw [← hrun.uncons.1]
    exact hdead
  | cons z between ih =>
    obtain ⟨hpost,hstep,hbefore⟩ := hrun.uncons
    have hgiven := ih hbefore fun z hz => hnot z (List.mem_cons_of_mem _ hz)
    subst s
    refine givenUp_step hgiven ?_ hstep (hnot z List.mem_cons_self)
    rw [(commanded_lasting h hbefore i).nodeId]
    exact hself

/-- A node that marks 10000 dead takes over in this very pass or else not before it has heard
from 10000 again: not when the node that takes over instead dies as well. -/
theorem one_chance {ι : Type} [DecidableEq ι] {launch : ι → Launch}
    (h : ∀ i, (launch i).Commanded) {before between : List (Taken (Cluster ι) (Event ι))}
    {x y : Taken (Cluster ι) (Event ι)} {s : Cluster ι}
    (hrun : Run step (Cluster.launch launch) (y :: (between ++ x :: before)) s) {i : ι}
    (hx : MarksDead i 10000 x) (hy : PromotedIn y i) : ∃ z ∈ between, HearsFrom i 10000 z := by
  obtain ⟨_,hstep,hbetween⟩ := hrun.uncons
  obtain ⟨hxstep,earlier,hearlier,_⟩ := hbetween.taken_step (List.mem_append_right _
    List.mem_cons_self)
  have hlast := commanded_lasting h hearlier i
  obtain ⟨hself,hdead⟩ := hx.givenUp hxstep hlast.listedOnce
  by_contra hnot
  have hgiven := givenUp_of_run h (hlast.nodeId ▸ hself) hdead hbetween
    fun z hz hheard => hnot ⟨z,hz,hheard⟩
  obtain ⟨up,now,promotedAt,table,he,_,w,_,hsplit,hexp,hw,_,_⟩ := hy
  have hmem : w ∈ (y.pre.leaf i).localClusterNodes := by simp [hsplit]
  have hdeadw := hgiven w hmem (hw.trans (commanded_watched h hbetween i))
  rw [((PaxosNode.expires_iff w).mp hexp).2.2] at hdeadw
  cases hdeadw

/-! ### A second leader -/

def renamed (k : Fin 3) : Launch :=
  { trio k with
    leafRole := if k = secondNode then localLeader else promotionReadyReplica
    leaderId := 10001 }

theorem renamed_commanded (k : Fin 3) : (renamed k).Commanded :=
  commanded_of (trio_commanded k).facts.1 (trio_commanded k).facts.2.1 rfl rfl

def spares (id : Int64) (s : Cluster ι) : Event ι → Bool
  | .input i _ (.detect now _) => (s.leaf i).localClusterNodes.all fun n =>
      decide (n.nodeId ≠ id) || !PaxosNode.expires (s.leaf i).nodeId now n
  | _ => true

omit [DecidableEq ι] in
theorem not_marksDead {id : Int64} {x : Taken (Cluster ι) (Event ι)}
    (h : spares id x.pre x.event = true) (i : ι) : ¬ MarksDead i id x := by
  rintro ⟨up,now,promotedAt,he,n,hn,hid,hexp⟩
  rw [he,spares,List.all_eq_true] at h
  have hn := h n hn
  simp [hid,hexp] at hn

def orphaned : List (Event (Fin 3)) :=
  [.input firstNode reachable (.heartbeat 16000 16000 0),.crash secondNode,
    .deliver thirdNode reachable 1 ⟨16001,16001⟩ .stored,
    .input thirdNode reachable (.detect 16002 16002)]

/-- No node takes its place. -/
theorem no_takeover_renamed : ∃ history s, Run step (Cluster.launch renamed) history s ∧
    s.running secondNode = false ∧
    ((s.leaf thirdNode).localClusterNodes.any fun n =>
      decide (n.nodeId = 10001) && !n.isAlive) = true ∧
    acceptsPut (s.leaf firstNode) = false ∧ acceptsPut (s.leaf thirdNode) = false := by
  have hend : ((Transition.exec (Transition.guarded (spares 10000) step) (Cluster.launch renamed)
      orphaned).any fun s => !s.running secondNode && (s.leaf thirdNode).localClusterNodes.any
        fun n => decide (n.nodeId = 10001) && !n.isAlive) = true := by
    decide +kernel
  obtain ⟨history,s,hguarded,_,hs⟩ := Run.of_exec_any _ hend
  obtain ⟨hrun,hspares⟩ := Run.of_guarded hguarded
  rw [Bool.and_eq_true,Bool.not_eq_true'] at hs
  have hkept := (no_takeover renamed_commanded hrun fun x hx => not_marksDead (hspares x hx)).1
  refine ⟨history,s,hrun,hs.1,hs.2,?_,?_⟩
  · rw [← Bool.not_eq_true,(hkept firstNode).2.2]
    decide
  · rw [← Bool.not_eq_true,(hkept thirdNode).2.2]
    decide

/-! ### A late heartbeat -/

theorem promotedIn_of_role {i : ι} {up : Reachability} {now promotedAt : Int64}
    (hs : s.step (.input i up (.detect now promotedAt)) = some t)
    (hrole : (t.leaf i).leafRole ≠ (s.leaf i).leafRole) :
    PromotedIn ⟨s,.input i up (.detect now promotedAt),t⟩ i := by
  rcases KiviLeaf.detectFailures_spec up now promotedAt (s.leaf i) with ⟨table,hp,_⟩ | ⟨_,hr⟩
  · exact ⟨up,now,promotedAt,table,rfl,hp⟩
  · rw [detect_post hs,hr] at hrole
    exact absurd rfl hrole

def secondHeard : List (Event (Fin 3)) :=
  [.input firstNode reachable (.heartbeat 1 1 0),
    .input secondNode reachable (.heartbeat 16000 16000 0),
    .deliver thirdNode reachable 3 ⟨16001,16001⟩ .stored]

def firstHeard : List (Event (Fin 3)) :=
  [.input thirdNode reachable (.detect 40000 40000),
    .deliver thirdNode reachable 1 ⟨40001,40001⟩ .stored]

/-- The first pass leaves the lead to the second node, the next one does not notice that it is
dead, and the third node takes over at the pass after the late heartbeat. -/
theorem one_chance_trio : ∃ before between x y s,
    Run step (Cluster.launch trio) (y :: (between ++ x :: before)) s ∧
      MarksDead thirdNode 10000 x ∧ PromotedIn y thirdNode ∧
        ∃ z ∈ between, HearsFrom thirdNode 10000 z := by
  have hend : ((Transition.exec step (Cluster.launch trio) secondHeard).any fun s =>
      ((s.leaf thirdNode).localClusterNodes.any fun n => decide (n.nodeId = 10000) &&
        PaxosNode.expires (s.leaf thirdNode).nodeId 20000 n) &&
      (s.step (.input thirdNode reachable (.detect 20000 20000))).any fun t =>
        (Transition.exec step t firstHeard).any fun u =>
          (u.step (.input thirdNode reachable (.detect 40002 40002))).any fun v =>
            decide ((v.leaf thirdNode).leafRole ≠ (u.leaf thirdNode).leafRole)) = true := by
    decide +kernel
  obtain ⟨before,between,s,t,u,v,hrun,hdead,hrole⟩ := Run.of_exec_twice hend
  obtain ⟨w,hw,hboth⟩ := List.any_eq_true.mp hdead
  simp only [Bool.and_eq_true,decide_eq_true_eq] at hboth hrole
  have hx : MarksDead thirdNode 10000
      ⟨s,.input thirdNode reachable (.detect 20000 20000),t⟩ :=
    ⟨reachable,20000,20000,rfl,w,hw,hboth⟩
  have hy := promotedIn_of_role hrun.uncons.2.1 hrole
  exact ⟨before,between,_,_,v,hrun,hx,hy,one_chance trio_commanded hrun hx hy⟩

end Cluster
end Kivi
