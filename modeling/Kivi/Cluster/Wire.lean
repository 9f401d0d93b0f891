import Kivi.Library.Simulation
import Kivi.Paxos.Decoding
import Kivi.Cluster.Provenance

/-! The cluster on its sockets: what travels are texts, each on a connection of its own, which the
server reads once and closes. One read takes as much of a text as has come in. The runs on the
sockets are the runs of the cluster that deliver no packet twice; a text that was cut off counts
as lost. -/
namespace Kivi

open Bytes (ofString)
open Transition (Run Taken Follows getElem?_of_forall₂ exists_of_forall₂)

/-- What a client has written to the connection to an address. -/
structure Transmission where
  nodeIp : Bytes
  nodePort : Int32
  data : Bytes

/-- What `RPCClient::send` writes for a packet. -/
def Packet.transmit (p : Packet) : Option Transmission :=
  match RPCClient.send true p.msg with
  | .ok (_,some data) => some ⟨p.nodeIp,p.nodePort,data⟩
  | _ => none

/-- `sent` holds the text of every connection there has been, `closed` the connections that the
server is done with or that have broken. -/
structure WireCluster (ι : Type) where
  leaf : ι → KiviLeaf
  running : ι → Bool
  sent : List Transmission
  closed : Finset ℕ

/-- An input of one node, a read of the first `length` bytes of the `n`-th text, the loss of the
`n`-th connection before it is read, or the end of a node. -/
inductive WireEvent (ι : Type)
  | input (i : ι) (up : Reachability) (input : Input)
  | receive (i : ι) (up : Reachability) (n length : ℕ) (clock : Clock) (order : HashOrder)
  | lose (n : ℕ)
  | crash (i : ι)

namespace WireCluster

variable {ι : Type}

def launch (launch : ι → Launch) : WireCluster ι :=
  ⟨fun i => (launch i).leaf,fun _ => true,[],∅⟩

def close (n : ℕ) (s : WireCluster ι) : WireCluster ι := { s with closed := insert n s.closed }

variable [DecidableEq ι]

def reacted (i : ι) (r : KiviLeaf × List Packet) (s : WireCluster ι) : WireCluster ι :=
  { s with leaf := Function.update s.leaf i r.1, sent := s.sent ++ r.2.filterMap Packet.transmit }

def perform (i : ι) (up : Reachability) (input : Input) (s : WireCluster ι) :
    Option (WireCluster ι) :=
  if s.running i then
    match (s.leaf i).react up input with
    | .ok r => some (s.reacted i r)
    | .error _ => none
  else none

/-- An iteration of the accept loop on the bytes of one read. Reading past the buffer is
undefined, and no state is given for it. -/
def iteration (parser : Json.Parser) (i : ι) (up : Reachability) (clock : Clock)
    (order : HashOrder) (bytes : Bytes) (s : WireCluster ι) : Option (WireCluster ι) :=
  match RPCServer.iteration parser bytes with
  | .ok it => it.handled.foldlM (fun s msg => s.perform i up (.message msg clock order)) s
  | .error _ => none

/-- One step. A text reaches only a running node at the address it was sent to, and whatever a
read takes of it, there is no second one. -/
def step (parser : Json.Parser) (s : WireCluster ι) : WireEvent ι → Option (WireCluster ι)
  | .input _ _ (.message _ _ _) => none
  | .input i up input => s.perform i up input
  | .receive i up n length clock order => (s.sent[n]?).bind fun x =>
      if n ∉ s.closed ∧ s.running i ∧ x.nodeIp = (s.leaf i).nodeIp ∧
          x.nodePort = (s.leaf i).nodePort then
        (s.close n).iteration parser i up clock order (x.data.take length) else none
  | .lose n => if n < s.sent.length ∧ n ∉ s.closed then some (s.close n) else none
  | .crash i =>
      if s.running i then some { s with running := Function.update s.running i false } else none

end WireCluster

/-! ### Texts -/

structure Transmission.Carried (x : Transmission) (p : Packet) : Prop where
  nodeIp : x.nodeIp = p.nodeIp
  nodePort : x.nodePort = p.nodePort
  data : p.msg.serialize = .ok x.data

namespace PaxosNode

theorem serialize_of_mem_sendMessage {up : Reachability} {ip : Bytes} {port : Int32} {msg : Message}
    {p : Packet} (h : p ∈ (sendMessage up ip port msg).packets) :
    ∃ data, p.msg.serialize = .ok data := by
  cases hser : msg.serialize with
  | ok data =>
    obtain ⟨rfl,_⟩ := mem_sendMessage h
    exact ⟨data,hser⟩
  | error e =>
    have hnone := (sendAll_of_error hser up [⟨0,ip,port,0,0,true⟩]).1
    have hall : (sendAll up [⟨0,ip,port,0,0,true⟩] msg).packets =
        (sendMessage up ip port msg).packets := List.append_nil _
    rw [← hall,hnone] at h
    simp at h

theorem serialize_of_mem_sendAll {up : Reachability} {nodes : List PaxosNodeDescriptor}
    {msg : Message} {p : Packet} (h : p ∈ (sendAll up nodes msg).packets) :
    ∃ data, p.msg.serialize = .ok data := by
  cases hser : msg.serialize with
  | ok data =>
    obtain ⟨n,_,rfl,_⟩ := mem_sendAll h
    exact ⟨data,hser⟩
  | error e =>
    rw [(sendAll_of_error hser up nodes).1] at h
    simp at h

end PaxosNode

namespace KiviLeaf

open PaxosNode (serialize_of_mem_sendMessage serialize_of_mem_sendAll)

theorem serialize_of_react {up : Reachability} {input : Input} {s : KiviLeaf}
    {r : KiviLeaf × List Packet} (h : s.react up input = .ok r) {p : Packet} (hp : p ∈ r.2) :
    ∃ data, p.msg.serialize = .ok data := by
  cases input with
  | heartbeat now₁ now₂ unset =>
    obtain rfl := Except.ok.inj h
    rcases List.mem_append.mp hp with hp | hp
    · exact serialize_of_mem_sendAll hp
    · exact serialize_of_mem_sendAll hp
  | detect now promotedAt =>
    obtain rfl := Except.ok.inj h
    rcases detectFailures_spec up now promotedAt s with ⟨table,_,hr⟩ | ⟨_,hr⟩
    · rw [hr] at hp
      exact serialize_of_mem_sendAll hp
    · rw [hr] at hp
      simp at hp
  | message msg clock order =>
    rcases handleMessage_cases h with ⟨ts,kivi,_,rfl⟩ | ⟨_,rfl | ⟨req,requester,rfl,rfl⟩ |
      ⟨res,rfl,rfl⟩ | ⟨m,rfl,rfl⟩⟩
    · simp at hp
    · simp at hp
    · exact serialize_of_mem_sendMessage hp
    · exact serialize_of_mem_sendMessage hp
    · simp at hp
  | put key value now =>
    obtain ⟨⟨s',packets,response⟩,hput,hr⟩ := except_bind_eq_ok.mp h
    obtain rfl := Except.ok.inj hr
    rcases put_cases hput with ⟨_,_,rfl,_⟩ | ⟨_,kivi,_,_,rfl⟩
    · simp at hp
    · exact serialize_of_mem_sendAll hp
  | get key =>
    obtain ⟨⟨s',response⟩,hget,hr⟩ := except_bind_eq_ok.mp h
    obtain rfl := Except.ok.inj hr
    simp at hp
  | boot unset =>
    obtain rfl := Except.ok.inj h
    rcases (boot_cases up unset s).2.2.2.2 with hsent | hsent
    · rw [hsent] at hp
      exact serialize_of_mem_sendMessage hp
    · simp [hsent] at hp
  | pull =>
    obtain rfl := Except.ok.inj h
    exact serialize_of_mem_sendMessage hp

theorem react_same {m m' : Message} (h : m.Same m') (up : Reachability) (clock : Clock)
    (order : HashOrder) (s : KiviLeaf) :
    s.react up (.message m' clock order) = s.react up (.message m clock order) := by
  cases m with
  | accept a =>
    cases m' with
    | accept b => rfl
    | _ => exact absurd h (by simp [Message.Same])
  | accepted a =>
    cases m' with
    | accepted b => rfl
    | _ => exact absurd h (by simp [Message.Same])
  | _ => cases m' <;> first | (cases h; rfl) | exact absurd h (by simp [Message.Same])

end KiviLeaf

namespace Message

theorem toJson_object {m : Message} {j : Json} (h : m.toJson = .ok j) : ∃ fs, j = .object fs := by
  cases m with
  | localSyncResponse m =>
    obtain ⟨_,_,hj⟩ := except_bind_eq_ok.mp h
    exact ⟨_,(Except.ok.inj hj).symm⟩
  | _ => exact ⟨_,(Except.ok.inj h).symm⟩

theorem writable_of_serialize {m : Message} {data : Bytes} (h : m.serialize = .ok data) :
    ∃ fs, Json.Writable (.object fs) ∧ data = Json.write (.object fs) := by
  obtain ⟨j,hj,hw,_⟩ := toJson_writable (clean_of_serialize h)
  obtain ⟨fs,rfl⟩ := toJson_object hj
  refine ⟨fs,hw,?_⟩
  have hdump : m.serialize = .ok (Json.write (.object fs)) := by
    simp only [serialize,hj,except_bind_ok,hw.dump]
  exact Except.ok.inj (h.symm.trans hdump)

end Message

namespace RPCServer

theorem iteration_cut (parser : Json.StrictParser) {m : Message} {data bytes : Bytes}
    (hd : m.serialize = .ok data) (hp : bytes <+: data) (hne : bytes ≠ data) {it : Iteration}
    (h : iteration parser.toParser bytes = .ok it) : it.handled = [] := by
  obtain ⟨fs,hw,rfl⟩ := Message.writable_of_serialize hd
  have h0 : 0 ∉ bytes := fun hz => Json.zero_notMem_write _ (hp.subset hz)
  by_cases hlt : bytes.length < bufferSize
  · obtain ⟨e,he⟩ := parser.parse_cut fs bytes hw.ordered hw.clean hw.sized hp hne
    have hfail : MessageFactory.fromJson parser.toParser bytes = .error (.json e) := by
      simp [MessageFactory.fromJson,he,Except.mapError,bind,Except.bind]
    simp only [iteration,cString_of_lt h0 hlt,except_bind_ok,hfail,except_pure] at h
    rw [← Except.ok.inj h]
  · rw [iteration,cString_of_le h0 (Nat.le_of_not_lt hlt)] at h
    simp [bind,Except.bind] at h

/-- A read of the whole text hands the message to the handler, or overruns the buffer. -/
theorem iteration_whole (parser : Json.Parser) {m : Message} {data : Bytes}
    (hd : m.serialize = .ok data) {it : Iteration} (h : iteration parser data = .ok it) :
    data.length < bufferSize ∧ ∃ m', it.handled = [m'] ∧ m.Same m' := by
  obtain ⟨fs,hw,rfl⟩ := Message.writable_of_serialize hd
  have hlt : (Json.write (.object fs)).length < bufferSize := by
    by_contra hle
    rw [iteration,cString_of_le (Json.zero_notMem_write _) (Nat.le_of_not_lt hle)] at h
    simp [bind,Except.bind] at h
  obtain ⟨it',hit,_,m',hm,hsame⟩ :=
    (delivers_iff parser (Message.clean_of_serialize hd) hd).mpr hlt
  obtain rfl : it = it' := Except.ok.inj (h.symm.trans hit)
  exact ⟨hlt,m',hm,hsame⟩

end RPCServer

namespace WireCluster

open Transmission (Carried)

variable {ι : Type} [DecidableEq ι] {w w' : WireCluster ι} {c c' : Cluster ι}

/-- The nodes are the same, and on the sockets are the texts of the packets on the network. -/
structure Refines (w : WireCluster ι) (c : Cluster ι) : Prop where
  leaf : w.leaf = c.leaf
  running : w.running = c.running
  sent : List.Forall₂ Carried w.sent c.sent

/-- The step of the cluster that an event on the sockets amounts to. -/
inductive Corresponds : WireEvent ι → Event ι → Prop
  | input (i up input) : Corresponds (.input i up input) (.input i up input)
  | receive (i up n length clock order) :
      Corresponds (.receive i up n length clock order) (.deliver i up n clock order)
  | crash (i) : Corresponds (.crash i) (.crash i)

theorem carried_transmit {ps : List Packet} (h : ∀ p ∈ ps, ∃ data, p.msg.serialize = .ok data) :
    List.Forall₂ Carried (ps.filterMap Packet.transmit) ps := by
  induction ps with
  | nil => exact .nil
  | cons p ps ih =>
    obtain ⟨data,hdata⟩ := h p List.mem_cons_self
    have htransmit : p.transmit = some ⟨p.nodeIp,p.nodePort,data⟩ := by
      simp [Packet.transmit,RPCClient.send,hdata]
    rw [List.filterMap_cons,htransmit]
    exact .cons ⟨rfl,rfl,hdata⟩ (ih fun q hq => h q (List.mem_cons_of_mem _ hq))

theorem Refines.reacted (h : Refines w c) {i : ι} {up : Reachability} {input : Input}
    {r : KiviLeaf × List Packet} (hr : (c.leaf i).react up input = .ok r) :
    Refines (w.reacted i r) (c.reacted i r) where
  leaf := by simp only [WireCluster.reacted,Cluster.reacted,h.leaf]
  running := h.running
  sent := List.rel_append h.sent (carried_transmit fun _ hp => KiviLeaf.serialize_of_react hr hp)

omit [DecidableEq ι] in
theorem Refines.close (h : Refines w c) (n : ℕ) : Refines (w.close n) c :=
  ⟨h.leaf,h.running,h.sent⟩

omit [DecidableEq ι] in
theorem refines_launch (launch : ι → Launch) :
    Refines (WireCluster.launch launch) (Cluster.launch launch) := ⟨rfl,rfl,.nil⟩

theorem perform_eq_some {i : ι} {up : Reachability} {input : Input} :
    w.perform i up input = some w' ↔ w.running i = true ∧
      ∃ r, (w.leaf i).react up input = .ok r ∧ w' = w.reacted i r := by
  unfold perform
  by_cases hrun : w.running i = true
  · rw [if_pos hrun]
    cases hr : (w.leaf i).react up input with
    | error e => simp
    | ok r => simp [hrun,eq_comm]
  · simp [hrun]

def arrives (x : Taken (WireCluster ι) (WireEvent ι)) : Bool :=
  match x.event with
  | .receive _ _ n length _ _ =>
    (x.pre.sent[n]?).all fun t => decide (t.data.take length = t.data)
  | .lose _ => false
  | _ => true

theorem receive_eq_some {parser : Json.Parser} {i : ι} {up : Reachability} {n length : ℕ}
    {clock : Clock} {order : HashOrder}
    (hs : w.step parser (.receive i up n length clock order) = some w') :
    ∃ x it, w.sent[n]? = some x ∧ n ∉ w.closed ∧ w.running i = true ∧
      x.nodeIp = (w.leaf i).nodeIp ∧ x.nodePort = (w.leaf i).nodePort ∧
      RPCServer.iteration parser (x.data.take length) = .ok it ∧
      it.handled.foldlM (fun w msg => w.perform i up (.message msg clock order)) (w.close n) =
        some w' := by
  obtain ⟨x,hx,hs⟩ := Option.bind_eq_some_iff.mp hs
  by_cases haddr : n ∉ w.closed ∧ w.running i = true ∧ x.nodeIp = (w.leaf i).nodeIp ∧
      x.nodePort = (w.leaf i).nodePort
  swap
  · simp [haddr] at hs
  rw [if_pos haddr,iteration] at hs
  obtain ⟨hopen,hrun,hip,hport⟩ := haddr
  cases hit : RPCServer.iteration parser (x.data.take length) with
  | error e => simp [hit] at hs
  | ok it =>
    simp only [hit] at hs
    exact ⟨x,it,hx,hopen,hrun,hip,hport,hit,hs⟩

theorem lose_eq_some {parser : Json.Parser} {n : ℕ} :
    w.step parser (.lose n) = some w' ↔ n < w.sent.length ∧ n ∉ w.closed ∧ w' = w.close n := by
  rw [step,Option.ite_none_right_eq_some,Option.some.injEq,and_assoc,@eq_comm _ (w.close n)]

theorem Refines.cut (parser : Json.StrictParser) (h : Refines w c) {e : WireEvent ι}
    (hcut : arrives ⟨w,e,w'⟩ = false) (hs : w.step parser.toParser e = some w') :
    Refines w' c := by
  cases e with
  | receive i up n length clock order =>
    obtain ⟨x,it,hx,_,_,_,_,hit,hs⟩ := receive_eq_some hs
    obtain ⟨p,_,hcarried⟩ := getElem?_of_forall₂ h.sent hx
    simp only [arrives,hx,Option.all_some,decide_eq_false_iff_not] at hcut
    have hnone := RPCServer.iteration_cut parser hcarried.data (List.take_prefix _ _) hcut hit
    obtain rfl : w.close n = w' := by simpa [hnone] using hs
    exact h.close n
  | lose n =>
    obtain ⟨_,_,rfl⟩ := lose_eq_some.mp hs
    exact h.close n
  | _ => simp [arrives] at hcut

theorem Refines.step (parser : Json.Parser) (h : Refines w c) {e : WireEvent ι}
    (harrives : arrives ⟨w,e,w'⟩ = true) (hs : w.step parser e = some w') :
    ∃ d c', Corresponds e d ∧ c.step d = some c' ∧ Refines w' c' := by
  cases e with
  | crash i =>
    by_cases hrun : w.running i = true
    · simp only [WireCluster.step,if_pos hrun,Option.some.injEq] at hs
      subst w'
      refine ⟨.crash i,c.crashed i,.crash i,?_,h.leaf,?_,h.sent⟩
      · simp only [Cluster.step,← h.running,hrun,if_true]
      · simp only [Cluster.crashed,h.running]
    · simp [WireCluster.step,hrun] at hs
  | input i up input =>
    have hperform : w.perform i up input = some w' ∧
        c.reaction (.input i up input) = some (i,up,input) := by
      cases input with
      | message msg clock order => simp [WireCluster.step] at hs
      | _ => exact ⟨hs,rfl⟩
    obtain ⟨hrun,r,hr,rfl⟩ := perform_eq_some.mp hperform.1
    rw [h.leaf] at hr
    rw [h.running] at hrun
    exact ⟨_,_,.input i up input,Cluster.step_of_reaction hperform.2 hrun hr,h.reacted hr⟩
  | lose n => simp [arrives] at harrives
  | receive i up n length clock order =>
    obtain ⟨x,it,hx,_,_,hip,hport,hit,hs⟩ := receive_eq_some hs
    obtain ⟨p,hp,hcarried⟩ := getElem?_of_forall₂ h.sent hx
    simp only [arrives,hx,Option.all_some,decide_eq_true_eq] at harrives
    rw [harrives] at hit
    obtain ⟨_,m',hm,hsame⟩ := RPCServer.iteration_whole parser hcarried.data hit
    have hperform : (w.close n).perform i up (.message m' clock order) = some w' := by
      simpa [hm] using hs
    obtain ⟨hrun,r,hr,rfl⟩ := perform_eq_some.mp hperform
    have hclosed := h.close n
    rw [KiviLeaf.react_same hsame,hclosed.leaf] at hr
    rw [hclosed.running] at hrun
    rw [h.leaf,hcarried.nodeIp] at hip
    rw [h.leaf,hcarried.nodePort] at hport
    have hreact : c.reaction (.deliver i up n clock order) =
        some (i,up,.message p.msg clock order) := by
      simp only [Cluster.reaction,hp,Option.bind_some,if_pos (And.intro hip hport)]
    exact ⟨_,_,.receive i up n length clock order,
      Cluster.step_of_reaction hreact hrun hr,hclosed.reacted hr⟩

/-- The text of every packet that is delivered leaves room in the buffer. -/
def Fits (x : Taken (Cluster ι) (Event ι)) : Prop :=
  ∀ i up n clock order p data, x.event = .deliver i up n clock order →
    x.pre.sent[n]? = some p → p.msg.serialize = .ok data → data.length < RPCServer.bufferSize

theorem Refines.fits (parser : Json.Parser) (h : Refines w c) {e : WireEvent ι} {d : Event ι}
    (he : Corresponds e d) (harrives : arrives ⟨w,e,w'⟩ = true)
    (hs : w.step parser e = some w') : Fits ⟨c,d,c'⟩ := by
  rintro i up n clock order p data rfl hp hdata
  cases he with
  | receive _ _ _ length _ _ =>
    obtain ⟨x,it,hx,_,_,_,_,hit,_⟩ := receive_eq_some hs
    obtain ⟨q,hq,hcarried⟩ := getElem?_of_forall₂ h.sent hx
    obtain rfl : q = p := Option.some.inj (hq.symm.trans hp)
    obtain rfl : x.data = data := Except.ok.inj (hcarried.data.symm.trans hdata)
    simp only [arrives,hx,Option.all_some,decide_eq_true_eq] at harrives
    rw [harrives] at hit
    exact (RPCServer.iteration_whole parser hcarried.data hit).1

variable {launch : ι → Launch}

/-- A run on the sockets is a run of the cluster with the same nodes in which exactly the texts
that were cut off or lost are not delivered. -/
theorem refines_of_run (parser : Json.StrictParser)
    {history : List (Taken (WireCluster ι) (WireEvent ι))}
    (hrun : Run (step parser.toParser) (WireCluster.launch launch) history w) :
    ∃ history' c, Run Cluster.step (Cluster.launch launch) history' c ∧ Refines w c ∧
      List.Forall₂ (Follows Refines Corresponds) history' (history.filter arrives) := by
  apply hrun.simulated arrives (refines_launch launch)
  · rintro ⟨v,e,v'⟩ _ c hcut hs hr
    exact hr.cut parser hcut hs
  · rintro ⟨v,e,v'⟩ _ c harrives hs hr
    exact hr.step parser.toParser harrives hs

/-! ### Once each -/

def delivered (x : Taken (Cluster ι) (Event ι)) : Option ℕ :=
  match x.event with
  | .deliver _ _ n _ _ => some n
  | _ => none

def deliveries (history : List (Taken (Cluster ι) (Event ι))) : List ℕ :=
  history.filterMap delivered

def received (x : Taken (WireCluster ι) (WireEvent ι)) : Option ℕ :=
  match x.event with
  | .receive _ _ n _ _ _ => some n
  | _ => none

def reads (history : List (Taken (WireCluster ι) (WireEvent ι))) : List ℕ :=
  history.filterMap received

omit [DecidableEq ι] in
theorem deliveries_eq_reads {history' : List (Taken (Cluster ι) (Event ι))}
    {history : List (Taken (WireCluster ι) (WireEvent ι))}
    (h : List.Forall₂ (Follows Refines Corresponds) history' history) :
    deliveries history' = reads history := by
  induction h with
  | nil => rfl
  | @cons y x _ _ hfollows _ ih =>
    have hsame : delivered y = received x := by
      have he := hfollows.event
      unfold delivered received
      generalize y.event = d at he
      generalize x.event = e at he
      cases he <;> rfl
    rw [deliveries,reads,List.filterMap_cons,List.filterMap_cons,hsame]
    cases received x with
    | none => exact ih
    | some n => exact congrArg (n :: ·) ih

/-- The connections that are closed were made, and none has been read twice. -/
structure Once (history : List (Taken (WireCluster ι) (WireEvent ι))) (w : WireCluster ι) :
    Prop where
  nodup : (reads history).Nodup
  closed : ∀ n ∈ reads history, n ∈ w.closed
  made : ∀ n ∈ w.closed, n < w.sent.length

theorem perform_closed {i : ι} {up : Reachability} {input : Input}
    (h : w.perform i up input = some w') : w'.closed = w.closed ∧ w.sent <+: w'.sent := by
  obtain ⟨_,r,_,rfl⟩ := perform_eq_some.mp h
  exact ⟨rfl,List.prefix_append _ _⟩

theorem performEach_closed {i : ι} {up : Reachability} {clock : Clock} {order : HashOrder}
    {msgs : List Message}
    (h : msgs.foldlM (fun w msg => w.perform i up (.message msg clock order)) w = some w') :
    w'.closed = w.closed ∧ w.sent <+: w'.sent := by
  induction msgs generalizing w with
  | nil =>
    obtain rfl : w = w' := by simpa using h
    exact ⟨rfl,List.prefix_refl _⟩
  | cons msg msgs ih =>
    rw [List.foldlM_cons] at h
    obtain ⟨v,hv,hrest⟩ := Option.bind_eq_some_iff.mp h
    obtain ⟨hclosed,hsent⟩ := ih hrest
    obtain ⟨hclosed',hsent'⟩ := perform_closed hv
    exact ⟨hclosed.trans hclosed',hsent'.trans hsent⟩

theorem Once.step (parser : Json.Parser)
    {history : List (Taken (WireCluster ι) (WireEvent ι))} (h : Once history w) {e : WireEvent ι}
    (hs : w.step parser e = some w') : Once (⟨w,e,w'⟩ :: history) w' := by
  have hgrows : w.sent <+: w'.sent → ∀ n, n < w.sent.length → n < w'.sent.length :=
    fun hsent _ hn => hn.trans_le hsent.length_le
  have hsame : received ⟨w,e,w'⟩ = none → w'.closed = w.closed → w.sent <+: w'.sent →
      Once (⟨w,e,w'⟩ :: history) w' := by
    intro hnone hclosed hsent
    have hreads : reads (⟨w,e,w'⟩ :: history) = reads history := List.filterMap_cons_none hnone
    exact ⟨hreads ▸ h.nodup,hreads ▸ hclosed ▸ h.closed,fun n hn =>
      hgrows hsent n (h.made n (hclosed ▸ hn))⟩
  cases e with
  | crash i =>
    obtain ⟨_,rfl⟩ := by simpa [WireCluster.step,Option.ite_none_right_eq_some] using hs
    exact hsame rfl rfl (List.prefix_refl _)
  | input i up input =>
    have hperform : w.perform i up input = some w' := by
      cases input with
      | message msg clock order => simp [WireCluster.step] at hs
      | _ => exact hs
    exact hsame rfl (perform_closed hperform).1 (perform_closed hperform).2
  | lose n =>
    obtain ⟨hn,_,rfl⟩ := lose_eq_some.mp hs
    refine ⟨h.nodup,fun k hk => Finset.mem_insert_of_mem (h.closed k hk),fun k hk => ?_⟩
    rcases Finset.mem_insert.mp hk with rfl | hk
    · exact hn
    · exact h.made k hk
  | receive i up n length clock order =>
    obtain ⟨x,it,hx,hopen,_,_,_,_,hs⟩ := receive_eq_some hs
    obtain ⟨hclosed,hsent⟩ := performEach_closed hs
    have hreads : reads (⟨w,.receive i up n length clock order,w'⟩ :: history) =
        n :: reads history := rfl
    refine ⟨?_,fun k hk => ?_,fun k hk => hgrows hsent k ?_⟩
    · rw [hreads,List.nodup_cons]
      exact ⟨fun hn => hopen (h.closed n hn),h.nodup⟩
    · rw [hclosed]
      rcases List.mem_cons.mp hk with rfl | hk
      · exact Finset.mem_insert_self _ _
      · exact Finset.mem_insert_of_mem (h.closed k hk)
    · rw [hclosed] at hk
      rcases Finset.mem_insert.mp hk with rfl | hk
      · exact (List.getElem?_eq_some_iff.mp hx).1
      · exact h.made k hk

theorem once_of_run (parser : Json.Parser) {history : List (Taken (WireCluster ι) (WireEvent ι))}
    (hrun : Run (step parser) (WireCluster.launch launch) history w) : Once history w := by
  apply hrun.history_invariant
  · exact ⟨List.nodup_nil,by simp [reads],by simp [WireCluster.launch]⟩
  · exact fun _ _ _ _ _ h hs => h.step parser hs

/-! ### Every such run -/

/-- The connections that are closed after a step of the cluster has been taken on the sockets. -/
def closedAfter (d : Option ℕ) (closed : Finset ℕ) : Finset ℕ := d.elim closed (insert · closed)

theorem Refines.realised (parser : Json.Parser) (h : Refines w c) {d : Event ι}
    (hfits : Fits ⟨c,d,c'⟩) (hopen : ∀ n, delivered ⟨c,d,c'⟩ = some n → n ∉ w.closed)
    (hs : c.step d = some c') :
    ∃ e w', w.step parser e = some w' ∧ Refines w' c' ∧
      w'.closed = closedAfter (delivered ⟨c,d,c'⟩) w.closed := by
  rcases Cluster.step_cases hs with ⟨i,rfl,hrun,rfl⟩ | ⟨i,up,input,r,hreact,hrun,hr,rfl⟩
  · rw [← h.running] at hrun
    refine ⟨.crash i,_,if_pos hrun,⟨h.leaf,?_,h.sent⟩,rfl⟩
    simp only [Cluster.crashed,h.running]
  cases d with
  | crash j => simp [Cluster.reaction] at hreact
  | input j up' input' =>
    have hstep : w.step parser (.input i up input) = w.perform i up input := by
      cases input' with
      | message msg clock order => simp [Cluster.reaction] at hreact
      | _ =>
        obtain ⟨rfl,rfl,rfl⟩ := by simpa [Cluster.reaction] using hreact
        rfl
    rw [← h.leaf] at hr
    rw [← h.running] at hrun
    refine ⟨.input i up input,w.reacted i r,?_,h.reacted (h.leaf ▸ hr),rfl⟩
    rw [hstep]
    exact perform_eq_some.mpr ⟨hrun,r,hr,rfl⟩
  | deliver j up' n clock order =>
    obtain ⟨p,hp,hi⟩ := Option.bind_eq_some_iff.mp hreact
    by_cases haddr : p.nodeIp = (c.leaf j).nodeIp ∧ p.nodePort = (c.leaf j).nodePort
    swap
    · simp [haddr] at hi
    rw [if_pos haddr,Option.some.injEq] at hi
    simp only [Prod.mk.injEq] at hi
    obtain ⟨rfl,rfl,rfl⟩ := hi
    obtain ⟨x,hx,hcarried⟩ := getElem?_of_forall₂ h.sent.flip hp
    have hlt := hfits j up' n clock order p x.data rfl hp hcarried.data
    obtain ⟨it,hit,_,m',hm,hsame⟩ := (RPCServer.delivers_iff parser
      (Message.clean_of_serialize hcarried.data) hcarried.data).mpr hlt
    have hwhole : x.data.take x.data.length = x.data := List.take_length
    have hclosed := h.close n
    have hreact' : ((w.close n).leaf j).react up' (.message m' clock order) = .ok r := by
      rw [KiviLeaf.react_same hsame,hclosed.leaf,hr]
    have haddr' : n ∉ w.closed ∧ w.running j = true ∧ x.nodeIp = (w.leaf j).nodeIp ∧
        x.nodePort = (w.leaf j).nodePort := by
      rw [h.leaf,h.running,hcarried.nodeIp,hcarried.nodePort]
      exact ⟨hopen n rfl,hrun,haddr⟩
    have hlast : (w.close n).perform j up' (.message m' clock order) =
        some ((w.close n).reacted j r) :=
      perform_eq_some.mpr ⟨haddr'.2.1,r,hreact',rfl⟩
    refine ⟨.receive j up' n x.data.length clock order,(w.close n).reacted j r,?_,
      hclosed.reacted hr,rfl⟩
    simp only [WireCluster.step,hx,Option.bind_some,if_pos haddr',iteration,hwhole,hit,hm,
      List.foldlM_cons,List.foldlM_nil,hlast,Option.bind_eq_bind,Option.pure_def]

/-- A run of the cluster that delivers no packet twice and none whose text fills the buffer is a
run on the sockets. -/
theorem realised_of_run (parser : Json.Parser) {history : List (Taken (Cluster ι) (Event ι))}
    (hrun : Run Cluster.step (Cluster.launch launch) history c) (hfits : ∀ x ∈ history, Fits x)
    (honce : (deliveries history).Nodup) :
    ∃ history' w, Run (step parser) (WireCluster.launch launch) history' w ∧ Refines w c ∧
      w.closed = (deliveries history).toFinset := by
  induction hrun with
  | nil => exact ⟨[],_,.nil,refines_launch launch,rfl⟩
  | @snoc history c d c' _ hs ih =>
    have hcons : deliveries (⟨c,d,c'⟩ :: history) =
        (delivered ⟨c,d,c'⟩).toList ++ deliveries history := by
      rw [deliveries,List.filterMap_cons]
      cases delivered ⟨c,d,c'⟩ <;> rfl
    rw [hcons] at honce
    obtain ⟨history',w,hrun',hr,hclosed⟩ := ih
      (fun x hx => hfits x (List.mem_cons_of_mem _ hx)) honce.of_append_right
    have hopen : ∀ n, delivered ⟨c,d,c'⟩ = some n → n ∉ w.closed := by
      intro n hn hmem
      rw [hn] at honce
      rw [hclosed,List.mem_toFinset] at hmem
      exact (List.nodup_cons.mp honce).1 hmem
    obtain ⟨e,w',hstep,hr',hafter⟩ :=
      hr.realised parser (hfits _ List.mem_cons_self) hopen hs
    refine ⟨_,w',hrun'.snoc hstep,hr',?_⟩
    rw [hafter,hclosed,hcons]
    cases delivered ⟨c,d,c'⟩ with
    | none => rfl
    | some n => exact List.toFinset_cons.symm

theorem lose_run {parser : Json.Parser} {start : WireCluster ι}
    {history : List (Taken (WireCluster ι) (WireEvent ι))} (hrun : Run (step parser) start history w)
    (lost : Finset ℕ) (hmade : ∀ n ∈ lost, n < w.sent.length) :
    ∃ history', Run (step parser) start history' { w with closed := w.closed ∪ lost } := by
  induction lost using Finset.induction_on with
  | empty => exact ⟨history,by simpa using hrun⟩
  | insert n lost _ ih =>
    obtain ⟨history',hrun'⟩ := ih fun k hk => hmade k (Finset.mem_insert_of_mem hk)
    rw [Finset.union_insert]
    by_cases hn : n ∈ w.closed ∪ lost
    · rw [Finset.insert_eq_of_mem hn]
      exact ⟨history',hrun'⟩
    · have hlose : step parser { w with closed := w.closed ∪ lost } (.lose n) =
          some { w with closed := insert n (w.closed ∪ lost) } :=
        if_pos ⟨hmade n (Finset.mem_insert_self _ _),hn⟩
      exact ⟨_,hrun'.snoc hlose⟩

theorem leftUnique_carried : Relator.LeftUnique Carried := by
  intro x y p hx hy
  have hdata := Except.ok.inj (hx.data.symm.trans hy.data)
  cases x
  cases y
  simp only [Transmission.mk.injEq]
  exact ⟨hx.nodeIp.trans hy.nodeIp.symm,hx.nodePort.trans hy.nodePort.symm,hdata⟩

omit [DecidableEq ι] in
theorem Refines.unique (h : Refines w c) (h' : Refines w' c) (hclosed : w.closed = w'.closed) :
    w = w' := by
  have hleaf := h.leaf.trans h'.leaf.symm
  have hrunning := h.running.trans h'.running.symm
  have hsent := List.left_unique_forall₂' leftUnique_carried h.sent h'.sent
  cases w
  cases w'
  simp only [WireCluster.mk.injEq]
  exact ⟨hleaf,hrunning,hsent,hclosed⟩

/-- The states reached on the sockets, wherever reads cut texts off and connections break, are
those the cluster reaches when it delivers no packet twice and none whose text fills the buffer;
the packets delivered are among the texts that are gone. -/
theorem reached_iff {ι : Type} [DecidableEq ι] (parser : Json.StrictParser) (launch : ι → Launch)
    (w : WireCluster ι) :
    (∃ history, Run (step parser.toParser) (WireCluster.launch launch) history w) ↔
      ∃ history c, Run Cluster.step (Cluster.launch launch) history c ∧
        (∀ x ∈ history, Fits x) ∧ (deliveries history).Nodup ∧ Refines w c ∧
        (∀ n ∈ deliveries history, n ∈ w.closed) ∧ ∀ n ∈ w.closed, n < w.sent.length := by
  constructor
  · rintro ⟨history,hrun⟩
    obtain ⟨history',c,hrun',hr,hall⟩ := refines_of_run parser hrun
    have honce := once_of_run parser.toParser hrun
    have hsub : (deliveries history').Sublist (reads history) := by
      rw [deliveries_eq_reads hall]
      exact List.filter_sublist.filterMap _
    refine ⟨history',c,hrun',fun y hy => ?_,honce.nodup.sublist hsub,hr,
      fun n hn => honce.closed n (hsub.subset hn),honce.made⟩
    obtain ⟨x,hx,hfollows⟩ := exists_of_forall₂ hall hy
    obtain ⟨hx,harrives⟩ := List.mem_filter.mp hx
    exact hfollows.pre.fits parser.toParser hfollows.event harrives (hrun.taken_step hx).1
  · rintro ⟨history,c,hrun,hfits,honce,hr,hsub,hmade⟩
    obtain ⟨history',w',hrun',hr',hclosed⟩ :=
      realised_of_run parser.toParser hrun hfits honce
    have hsent : w.sent = w'.sent :=
      List.left_unique_forall₂' leftUnique_carried hr.sent hr'.sent
    obtain ⟨history'',hlost⟩ := lose_run hrun' w.closed (hsent ▸ hmade)
    have hall : w'.closed ∪ w.closed = w.closed := by
      rw [Finset.union_eq_right,hclosed]
      exact fun n hn => hsub n (List.mem_toFinset.mp hn)
    rw [hall] at hlost
    have hsame : w = { w' with closed := w.closed } :=
      hr.unique ⟨hr'.leaf,hr'.running,hr'.sent⟩ rfl
    rw [hsame]
    exact ⟨history'',hlost⟩

def AcceptedPut (history : List (Taken (WireCluster ι) (WireEvent ι))) (k v : Bytes) : Prop :=
  k ≠ [] ∧ v ≠ [] ∧ ∃ x ∈ history, ∃ i up now, x.event = .input i up (.put k v now) ∧
    RestController.acceptsPut (x.pre.leaf i) = true

/-- However the texts are cut off, every pair in a store was put by a client at a node that took
itself for the leader. -/
theorem stored_accepted {ι : Type} [DecidableEq ι] (parser : Json.StrictParser)
    (launch : ι → Launch) {history : List (Taken (WireCluster ι) (WireEvent ι))}
    {w : WireCluster ι} (hrun : Run (step parser.toParser) (WireCluster.launch launch) history w)
    {i : ι} {k v : Bytes} (hv : (w.leaf i).kivi.getKvBatch.lookup k = some v) :
    AcceptedPut history k v := by
  obtain ⟨history',c,hrun',hr,hall⟩ := refines_of_run parser hrun
  have hfresh : Cluster.Fresh 100 (Cluster.launch launch) := ⟨fun _ => rfl,rfl⟩
  obtain ⟨l,hl,hsourced⟩ := Cluster.sourced_of_run (by decide) hfresh hrun'
  rw [hr.leaf,hl.lookup] at hv
  obtain ⟨hk,hne,y,hy,j,up,now,hevent,hacc⟩ := hsourced.stored i k v hv
  obtain ⟨x,hx,hfollows⟩ := exists_of_forall₂ hall hy
  have hcorresponds := hfollows.event
  rw [hevent] at hcorresponds
  refine ⟨hk,hne,x,(List.mem_filter.mp hx).1,j,up,now,?_,by rwa [hfollows.pre.leaf]⟩
  generalize x.event = e at hcorresponds
  cases hcorresponds
  rfl

/-- The read of the first push takes ten bytes of it and is lost, the second push arrives. -/
theorem stored_accepted_trio : ∃ history w,
    Run (step Json.StrictParser.reference.toParser) (WireCluster.launch Cluster.trio) history w ∧
      (w.leaf 1).kivi.getKvBatch.lookup [0x6B] = some [0x76] ∧
      AcceptedPut history [0x6B] [0x76] := by
  have hend : ((Transition.exec (step Json.StrictParser.reference.toParser)
      (WireCluster.launch Cluster.trio)
      [.input Cluster.firstNode Cluster.reachable (.put [0x6B] [0x76] 5),
        .receive Cluster.secondNode Cluster.reachable 0 10 ⟨6,6⟩ .stored,
        .input Cluster.firstNode Cluster.reachable (.put [0x6B] [0x76] 7),
        .receive Cluster.secondNode Cluster.reachable 2 4096 ⟨8,8⟩ .stored]).any fun w =>
      decide ((w.leaf 1).kivi.getKvBatch.lookup [0x6B] = some [0x76])) = true := by
    decide +kernel
  obtain ⟨history,w,hrun,_,hw⟩ := Run.of_exec_any _ hend
  have hlook := of_decide_eq_true hw
  exact ⟨history,w,hrun,hlook,stored_accepted .reference Cluster.trio hrun hlook⟩

end WireCluster
end Kivi
