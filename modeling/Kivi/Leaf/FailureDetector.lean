import Kivi.Leaf.Membership

/-! The failure detector in time. It compares the receiver's clock with the stamp recorded
for an entry: the local time at which the entry was made, and from the next heartbeat on the
time that the sender has put into its message. -/
namespace Kivi

open Transition (Run Taken)

def InRange (now last : Int64) : Prop :=
  -2^63 ≤ now.toInt-last.toInt ∧ now.toInt-last.toInt < 2^63

instance (now last : Int64) : Decidable (InRange now last) :=
  inferInstanceAs (Decidable (_ ∧ _))

theorem PaxosNodeDescriptor.expired_iff {now : Int64} {n : PaxosNodeDescriptor}
    (h : InRange now n.lastSeen) :
    n.expired now = true ↔ now.toInt-n.lastSeen.toInt > 15000 := by
  have hlimit : silenceLimit.toInt = 15000 := by decide
  have hsub : (now-n.lastSeen).toInt = now.toInt-n.lastSeen.toInt := by
    rw [Int64.toInt_sub]
    exact Int.bmod_eq_of_le (by have := h.1; omega) (by have := h.2; omega)
  rw [expired,decide_eq_true_eq,gt_iff_lt,Int64.lt_iff_toInt_lt,hlimit,hsub]

def MemberEvent.time : MemberEvent → Option Int64
  | .heartbeat now _ => some now
  | .detect _ now _ => some now
  | .remove _ => none

namespace KiviLeaf

open PaxosNode (detectEntry heard)

variable {s t s₀ : KiviLeaf} {history : List (Taken KiviLeaf MemberEvent)}
  {initialNodes : List (Int64 × PaxosNodeSharableDescriptor)} {id : Int64}
  {events : List MemberEvent}

/-- Heartbeats and passes only, at local times that never decrease. -/
structure Clocked (initialNodes : List (Int64 × PaxosNodeSharableDescriptor))
    (events : List MemberEvent) : Prop where
  timed : ∀ e ∈ events, e.time.isSome = true
  ordered : (events.filterMap MemberEvent.time).Pairwise fun later earlier => earlier ≤ later
  registered : ∀ n ∈ initialNodes, ∀ now ∈ events.filterMap MemberEvent.time, n.1 ≤ now

/-- At local time `at` the id was registered, or a heartbeat of it was handled. -/
def HandledAt (initialNodes : List (Int64 × PaxosNodeSharableDescriptor))
    (events : List MemberEvent) (id now : Int64) : Prop :=
  (∃ n ∈ initialNodes, n.2.nodeId = id ∧ n.1 = now) ∨
    ∃ msg, .heartbeat now msg ∈ events ∧ msg.nodeId = id

/-- The stamp recorded for an id: the local time of its registration or first heartbeat, then
the stamp of each further heartbeat. -/
def recorded (initialNodes : List (Int64 × PaxosNodeSharableDescriptor)) (id : Int64) :
    List MemberEvent → Option Int64
  | [] => (initialNodes.find? fun n => decide (n.2.nodeId = id)).map Prod.fst
  | .heartbeat now msg :: events =>
    if msg.nodeId = id then
      some (if (recorded initialNodes id events).isSome then msg.lastSeen else now)
    else recorded initialNodes id events
  | .detect _ _ _ :: events => recorded initialNodes id events
  | .remove _ :: events => recorded initialNodes id events

theorem recorded_nil (hd : (initialNodes.map fun n => n.2.nodeId).Nodup)
    {n : Int64 × PaxosNodeSharableDescriptor} (hn : n ∈ initialNodes) :
    recorded initialNodes n.2.nodeId [] = some n.1 := by
  have hfind := find?_of_nodup hd hn
  rw [recorded,hfind]
  rfl

theorem times_sublist (e : MemberEvent) (events : List MemberEvent) :
    (events.filterMap MemberEvent.time).Sublist ((e::events).filterMap MemberEvent.time) :=
  (List.sublist_cons_self e events).filterMap _

theorem Clocked.tail {e : MemberEvent} (h : Clocked initialNodes (e::events)) :
    Clocked initialNodes events := by
  have hsub := times_sublist e events
  exact ⟨fun e he => h.timed e (List.mem_cons_of_mem _ he),h.ordered.sublist hsub,
    fun n hn now hnow => h.registered n hn now (hsub.subset hnow)⟩

/-- No pass of the run subtracts across the range of 64 bits. -/
def NoOverflow (history : List (Taken KiviLeaf MemberEvent)) : Prop :=
  ∀ x ∈ history, ∀ up now promotedAt, x.event = .detect up now promotedAt →
    ∀ n ∈ x.pre.entries, n.nodeId ≠ x.pre.nodeId →
      InRange now n.lastSeen

/-- The entries carry the recorded stamps, and a dead one had expired in some pass. -/
structure Stamped (initialNodes : List (Int64 × PaxosNodeSharableDescriptor))
    (events : List MemberEvent) (s : KiviLeaf) : Prop where
  nodup : s.memberIds.Nodup
  unlisted : ∀ id ∉ s.memberIds, recorded initialNodes id events = none
  stamp : ∀ n ∈ s.entries,
    recorded initialNodes n.nodeId events = some n.lastSeen
  dead : ∀ n ∈ s.entries, n.nodeId ≠ s.nodeId → n.isAlive = false →
    ∃ past ∈ events.filterMap MemberEvent.time, past.toInt-n.lastSeen.toInt > 15000

theorem Stamped.heartbeat_known (h : Stamped initialNodes events s) (now : Int64)
    {msg : HeartBeatMessage} (hknown : msg.nodeId ∈ s.memberIds) :
    Stamped initialNodes (.heartbeat now msg :: events)
      { s with toPaxosNode := s.toPaxosNode.receiveHeartBeat now msg } := by
  have hid := (PaxosNode.receiveHeartBeat_identity now msg s.toPaxosNode).1
  have hsome : (recorded initialNodes msg.nodeId events).isSome = true := by
    obtain ⟨n,hn,hnid⟩ := List.mem_map.mp hknown
    rw [← hnid,h.stamp n hn]
    rfl
  have hentries := PaxosNode.receiveHeartBeat_entries now h.nodup hknown
  have hids := PaxosNode.receiveHeartBeat_memberIds now h.nodup hknown
  refine ⟨hids.symm ▸ h.nodup,fun id hnot => ?_,fun n hn => ?_,fun n hn hself hdead => ?_⟩
  · change id ∉ (s.toPaxosNode.receiveHeartBeat now msg).memberIds at hnot
    rw [hids] at hnot
    have hne : msg.nodeId ≠ id := fun he => hnot (he ▸ hknown)
    rw [recorded,if_neg hne]
    exact h.unlisted id hnot
  · change n ∈ (s.toPaxosNode.receiveHeartBeat now msg).entries at hn
    rw [hentries] at hn
    obtain ⟨m,hm,rfl⟩ := List.mem_map.mp hn
    rw [recorded,PaxosNode.heard_nodeId]
    by_cases he : m.nodeId = msg.nodeId
    · simp [heard,he,hsome]
    · rw [if_neg (Ne.symm he),h.stamp m hm]
      simp [heard,he]
  · change n ∈ (s.toPaxosNode.receiveHeartBeat now msg).entries at hn
    change n.nodeId ≠ (s.toPaxosNode.receiveHeartBeat now msg).nodeId at hself
    rw [hentries] at hn
    rw [hid] at hself
    obtain ⟨m,hm,rfl⟩ := List.mem_map.mp hn
    by_cases he : m.nodeId = msg.nodeId
    · simp [heard,he] at hdead
    · have hsame : heard msg m = m := by simp [heard,he]
      rw [hsame] at hself hdead ⊢
      obtain ⟨past,hp,hold⟩ := h.dead m hm hself hdead
      exact ⟨past,(times_sublist _ events).subset hp,hold⟩

theorem Stamped.heartbeat_unknown (h : Stamped initialNodes events s) (now : Int64)
    {msg : HeartBeatMessage} (hknown : msg.nodeId ∉ s.memberIds) :
    Stamped initialNodes (.heartbeat now msg :: events)
      { s with toPaxosNode := s.toPaxosNode.receiveHeartBeat now msg } := by
  have hid := (PaxosNode.receiveHeartBeat_identity now msg s.toPaxosNode).1
  have hnew := PaxosNode.receiveHeartBeat_unknown now hknown
  have hnone := h.unlisted msg.nodeId hknown
  have hentries : ∀ n, n ∈ (s.toPaxosNode.receiveHeartBeat now msg).entries ↔
      n = PaxosNode.newEntry now ⟨msg.nodeId,msg.nodeIp,msg.nodePort⟩ ∨ n ∈ s.entries := by
    intro n
    rw [hnew,(PaxosNode.addNewNode_entries _ _ _ _).mem_iff,List.mem_cons]
  have hids : (s.toPaxosNode.receiveHeartBeat now msg).memberIds.Perm
      (msg.nodeId :: s.memberIds) := by
    rw [hnew]
    exact PaxosNode.addNewNode_memberIds _ _ _ _
  have hother : ∀ n ∈ s.entries, msg.nodeId ≠ n.nodeId := fun n hn he =>
    hknown (he ▸ List.mem_map_of_mem hn)
  refine ⟨hids.nodup_iff.mpr (List.nodup_cons.mpr ⟨hknown,h.nodup⟩),fun id hnot => ?_,
    fun n hn => ?_,fun n hn hself hdead => ?_⟩
  · rw [hids.mem_iff,List.mem_cons,not_or] at hnot
    rw [recorded,if_neg (Ne.symm hnot.1)]
    exact h.unlisted id hnot.2
  · rcases (hentries n).mp hn with rfl | hn
    · simp [recorded,hnone,PaxosNode.newEntry]
    · rw [recorded,if_neg (hother n hn)]
      exact h.stamp n hn
  · change n.nodeId ≠ (s.toPaxosNode.receiveHeartBeat now msg).nodeId at hself
    rw [hid] at hself
    rcases (hentries n).mp hn with rfl | hn
    · simp [PaxosNode.newEntry] at hdead
    · obtain ⟨past,hp,hold⟩ := h.dead n hn hself hdead
      exact ⟨past,(times_sublist _ events).subset hp,hold⟩

theorem Stamped.detect (h : Stamped initialNodes events s) (up : Reachability)
    (now promotedAt : Int64)
    (hrange : ∀ n ∈ s.entries, n.nodeId ≠ s.nodeId → InRange now n.lastSeen) :
    Stamped initialNodes (.detect up now promotedAt :: events)
      (s.detectFailures up now promotedAt).1 := by
  have hentries := detectFailures_entries up now promotedAt s
  have hids := detectFailures_memberIds up now promotedAt s
  have hself' : (s.detectFailures up now promotedAt).1.nodeId = s.nodeId := by
    rw [detectFailures_tables]
  refine ⟨hids.symm ▸ h.nodup,fun id hnot => h.unlisted id (hids ▸ hnot),fun n hn => ?_,
    fun n hn hself hdead => ?_⟩
  · rw [hentries] at hn
    obtain ⟨m,hm,rfl⟩ := List.mem_map.mp hn
    rw [PaxosNode.detectEntry_nodeId,PaxosNode.detectEntry_lastSeen]
    exact h.stamp m hm
  · rw [hentries] at hn
    rw [hself'] at hself
    obtain ⟨m,hm,rfl⟩ := List.mem_map.mp hn
    rw [PaxosNode.detectEntry_nodeId] at hself
    rw [PaxosNode.detectEntry_lastSeen]
    have hcause : m.isAlive = false ∨ m.expired now = true := by
      by_contra hnone
      simp only [not_or,Bool.not_eq_false,Bool.not_eq_true] at hnone
      have halive : (detectEntry s.nodeId now m).isAlive = true :=
        (PaxosNode.detectEntry_isAlive m).mpr (.inr hnone)
      rw [hdead] at halive
      exact absurd halive (by decide)
    rcases hcause with hold | hexp
    · obtain ⟨past,hp,hlt⟩ := h.dead m hm hself hold
      exact ⟨past,(times_sublist _ events).subset hp,hlt⟩
    · exact ⟨now,by simp [MemberEvent.time],
        (PaxosNodeDescriptor.expired_iff (hrange m hm hself)).mp hexp⟩

theorem stamped_of_run (hlocal : s₀.localClusterNodes = []) (hglobal : s₀.clusterNodes = [])
    (hd : (initialNodes.map fun n => n.2.nodeId).Nodup)
    (hrun : Run memberStep (s₀.registered initialNodes) history s)
    (hclocked : Clocked initialNodes (history.map Taken.event)) (hrange : NoOverflow history) :
    Stamped initialNodes (history.map Taken.event) s := by
  induction hrun with
  | nil =>
    have hentries := registered_entries initialNodes hlocal hglobal
    refine ⟨?_,fun id hnot => ?_,fun n hn => ?_,fun n hn _ hdead => ?_⟩
    · rw [PaxosNode.memberIds,hentries,List.map_map]
      exact hd
    · have hnone : ∀ n ∈ initialNodes, n.2.nodeId ≠ id := by
        intro n hn he
        apply hnot
        rw [PaxosNode.memberIds,hentries,List.map_map]
        exact he ▸ List.mem_map_of_mem hn
      rw [List.map_nil,recorded,Option.map_eq_none_iff,List.find?_eq_none]
      simpa using hnone
    · rw [hentries] at hn
      obtain ⟨m,hm,rfl⟩ := List.mem_map.mp hn
      exact recorded_nil hd hm
    · rw [hentries] at hn
      obtain ⟨m,_,rfl⟩ := List.mem_map.mp hn
      simp [PaxosNode.newEntry] at hdead
  | @snoc history s e t hrun hstep ih =>
    have hbefore : Clocked initialNodes (history.map Taken.event) := hclocked.tail
    have h := ih hbefore fun x hx => hrange x (List.mem_cons_of_mem _ hx)
    cases e with
    | heartbeat now msg =>
      obtain rfl := Option.some.inj hstep
      by_cases hknown : msg.nodeId ∈ s.memberIds
      · exact h.heartbeat_known now hknown
      · exact h.heartbeat_unknown now hknown
    | detect up now promotedAt =>
      obtain rfl := Option.some.inj hstep
      exact h.detect up now promotedAt (hrange _ List.mem_cons_self up now promotedAt rfl)
    | remove node =>
      have htimed := hclocked.timed (.remove node) List.mem_cons_self
      simp [MemberEvent.time] at htimed

def pair : List (Int64 × PaxosNodeSharableDescriptor) := [(0,⟨1,[],5000⟩),(0,⟨2,[],5001⟩)]

def stamped (stamp : Int64) : MemberEvent := .heartbeat 20000 ⟨2,[],5001,stamp,1⟩

def pairHeard (stamp : Int64) : KiviLeaf := { loneLeaf.registered pair with
  toPaxosNode := (loneLeaf.registered pair).toPaxosNode.receiveHeartBeat 20000
    ⟨2,[],5001,stamp,1⟩ }

def pairSwept (stamp : Int64) : KiviLeaf :=
  ((pairHeard stamp).detectFailures (fun _ _ => true) 20000 20000).1

def pairHistory (stamp : Int64) : List (Taken KiviLeaf MemberEvent) :=
  [⟨pairHeard stamp,.detect (fun _ _ => true) 20000 20000,pairSwept stamp⟩,
    ⟨loneLeaf.registered pair,stamped stamp,pairHeard stamp⟩]

def swept : PaxosNodeDescriptor := ⟨2,[],5001,0,-1,false⟩

theorem swept_mem : swept ∈ (pairSwept 0).entries ∧ swept.nodeId ≠ (pairSwept 0).nodeId := by
  decide +kernel

theorem pair_run (stamp : Int64) :
    Run memberStep (loneLeaf.registered pair) (pairHistory stamp) (pairSwept stamp) :=
  (Run.nil.snoc rfl).snoc rfl

theorem pair_clocked (stamp : Int64) : Clocked pair ((pairHistory stamp).map Taken.event) := by
  have hevents : (pairHistory stamp).map Taken.event =
      [.detect (fun _ _ => true) 20000 20000,stamped stamp] := rfl
  have htimes : [MemberEvent.detect (fun _ _ => true) 20000 20000,stamped stamp].filterMap
      MemberEvent.time = [20000,20000] := rfl
  rw [hevents]
  refine ⟨?_,?_,?_⟩
  · simp [MemberEvent.time,stamped]
  · rw [htimes]
    simp
  · rw [htimes]
    simp [pair]

/-- The heartbeat of a node whose clock is behind is handled, and the pass of the same moment
marks the node dead; a stamp at the end of the range makes the pass overflow. -/
theorem dead_while_heard : (¬ ∀ (s₀ : KiviLeaf)
    (initialNodes : List (Int64 × PaxosNodeSharableDescriptor)), s₀.localClusterNodes = [] →
    s₀.clusterNodes = [] → (initialNodes.map fun n => n.2.nodeId).Nodup →
    ∀ history pre s up now promotedAt, Run memberStep (s₀.registered initialNodes)
      (⟨pre,.detect up now promotedAt,s⟩ :: history) s →
    Clocked initialNodes (.detect up now promotedAt :: history.map Taken.event) →
    NoOverflow (⟨pre,.detect up now promotedAt,s⟩ :: history) ∧
    ∀ n ∈ s.entries, n.nodeId ≠ s.nodeId → (n.isAlive = false ↔
      ¬ ∃ t, HandledAt initialNodes (history.map Taken.event) n.nodeId t ∧
        now.toInt-t.toInt ≤ 15000)) ∧
    Run memberStep (loneLeaf.registered pair) (pairHistory .minValue) (pairSwept .minValue) ∧
    Clocked pair ((pairHistory .minValue).map Taken.event) ∧
    ¬ NoOverflow (pairHistory .minValue) := by
  refine ⟨fun h => ?_,pair_run _,pair_clocked _,fun h => ?_⟩
  · have hpair := (h loneLeaf pair rfl rfl (by decide) _ _ _ _ _ _ (pair_run 0)
      (pair_clocked 0)).2
    have hiff := hpair swept swept_mem.1 swept_mem.2
    exact hiff.mp rfl ⟨20000,.inr ⟨_,List.mem_cons_self,rfl⟩,by decide⟩
  · have hentry : (⟨2,[],5001,.minValue,-1,true⟩ : PaxosNodeDescriptor) ∈
        (pairHeard .minValue).entries ∧ (2 : Int64) ≠ (pairHeard .minValue).nodeId := by
      decide +kernel
    have hrange := h _ List.mem_cons_self _ _ _ rfl _ hentry.1 hentry.2
    exact absurd hrange (by decide +kernel)

/-- After a pass at `now`, an entry other than the node's own is dead exactly when the stamp
recorded for it is more than fifteen seconds old. -/
theorem dead_iff_recorded (hlocal : s₀.localClusterNodes = []) (hglobal : s₀.clusterNodes = [])
    (hd : (initialNodes.map fun n => n.2.nodeId).Nodup) {up : Reachability}
    {now promotedAt : Int64} {pre : KiviLeaf}
    (hrun : Run memberStep (s₀.registered initialNodes)
      (⟨pre,.detect up now promotedAt,s⟩ :: history) s)
    (hclocked : Clocked initialNodes
      (.detect up now promotedAt :: history.map Taken.event))
    (hrange : NoOverflow (⟨pre,.detect up now promotedAt,s⟩ :: history)) :
    ∀ n ∈ s.entries, n.nodeId ≠ s.nodeId →
      (n.isAlive = false ↔ ∃ r, recorded initialNodes n.nodeId (history.map Taken.event) = some r ∧
        now.toInt-r.toInt > 15000) := by
  intro n hn hself
  have hstamped := stamped_of_run hlocal hglobal hd hrun hclocked hrange
  have hstamp : recorded initialNodes n.nodeId (history.map Taken.event) = some n.lastSeen :=
    hstamped.stamp n hn
  have hpost : (pre.detectFailures up now promotedAt).1 = s := Option.some.inj hrun.uncons.2.1
  subst hpost
  rw [hstamp]
  constructor
  · intro hdead
    obtain ⟨past,hp,hlt⟩ := hstamped.dead n hn hself hdead
    have hle : past ≤ now := by
      have hordered := hclocked.ordered
      have hmem : past ∈ now :: (history.map Taken.event).filterMap MemberEvent.time := hp
      rcases List.mem_cons.mp hmem with rfl | hp
      · exact Int64.le_refl _
      · exact (List.pairwise_cons.mp hordered).1 past hp
    rw [Int64.le_iff_toInt_le] at hle
    exact ⟨_,rfl,by omega⟩
  · rintro ⟨r,hr,hlt⟩
    obtain rfl := Option.some.inj hr
    have hself' : (pre.detectFailures up now promotedAt).1.nodeId = pre.nodeId := by
      rw [detectFailures_tables]
    rw [detectFailures_entries] at hn
    rw [hself'] at hself
    obtain ⟨m,hm,rfl⟩ := List.mem_map.mp hn
    rw [PaxosNode.detectEntry_nodeId] at hself
    rw [PaxosNode.detectEntry_lastSeen] at hlt
    have hm' := hrange _ List.mem_cons_self up now promotedAt rfl m hm hself
    have hexp := (PaxosNodeDescriptor.expired_iff hm').mpr hlt
    by_contra halive
    rw [Bool.not_eq_false,PaxosNode.detectEntry_isAlive] at halive
    rcases halive with hid | ⟨_,hnot⟩
    · exact hself hid
    · rw [hexp] at hnot
      exact absurd hnot (by decide)

theorem dead_iff_recorded_pair : swept.isAlive = false ↔
    ∃ r, recorded pair swept.nodeId [stamped 0] = some r ∧
      (20000 : Int64).toInt-r.toInt > 15000 := by
  have hempty : loneLeaf.localClusterNodes = [] ∧ loneLeaf.clusterNodes = [] := ⟨rfl,rfl⟩
  refine dead_iff_recorded hempty.1 hempty.2 (by decide) (pair_run 0) (pair_clocked 0) ?_
    swept swept_mem.1 swept_mem.2
  intro x hx up now promotedAt he
  rcases List.mem_cons.mp hx with rfl | hx
  · obtain ⟨_,rfl,_⟩ := MemberEvent.detect.inj he
    decide
  · rw [List.mem_singleton.mp hx] at he
    exact absurd he (by simp [stamped])

end KiviLeaf
end Kivi
