import Kivi.Library.DottedQuad
import Kivi.Library.Simulation
import Kivi.Cluster.Snapshots

/-! Addresses as the sockets see them. A connection is opened to four bytes and a port of sixteen
bits, whatever text the address was, and the server that listens at the port takes it, whatever
address its node was given. -/
namespace Kivi

open Transition (Run Taken exec exec_related map_eq_of_rel)
open DottedQuad (inetPton)

structure Endpoint where
  address : DottedQuad.Address
  port : UInt16
  deriving DecidableEq

def htons (port : Int32) : UInt16 := port.toUInt32.toUInt16

/-- Where `send` connects to. A text that `inet_pton` rejects leaves the address zero. -/
def RPCClient.endpoint (nodeAddr : Bytes) (port : Int32) : Endpoint where
  address := (inetPton (nodeAddr.takeWhile fun b => decide (b ≠ 0))).getD ⟨0,0,0,0⟩
  port := htons port

-- ports that differ by 65536 are one
example : RPCClient.endpoint (Bytes.ofString "127.0.0.1") 5000 =
    RPCClient.endpoint (Bytes.ofString "127.0.0.1") 70536 := by decide +kernel

/-- The host each node runs on, and the host an address leads to from each host: 127.0.0.1 is the
host itself. -/
structure Network (ι η : Type) where
  host : ι → η
  route : η → DottedQuad.Address → Option η

/-- What a client has sent on a connection. The node that reads it is not known here. -/
structure Connection (η : Type) where
  host : Option η
  port : UInt16
  msg : Message

def Packet.connect {ι η : Type} (net : Network ι η) (i : ι) (p : Packet) : Connection η :=
  let endpoint := RPCClient.endpoint p.nodeIp p.nodePort
  ⟨net.route (net.host i) endpoint.address,endpoint.port,p.msg⟩

structure SocketCluster (ι η : Type) where
  leaf : ι → KiviLeaf
  running : ι → Bool
  sent : List (Connection η)

namespace SocketCluster

variable {ι η : Type}

def launch (launch : ι → Launch) : SocketCluster ι η := ⟨fun i => (launch i).leaf,fun _ => true,[]⟩

def nodes (s : SocketCluster ι η) : (ι → KiviLeaf) × (ι → Bool) := (s.leaf,s.running)

variable [DecidableEq ι]

def perform (net : Network ι η) (i : ι) (up : Reachability) (input : Input)
    (s : SocketCluster ι η) : Option (SocketCluster ι η) :=
  if s.running i then
    match (s.leaf i).react up input with
    | .ok r => some { s with
        leaf := Function.update s.leaf i r.1
        sent := s.sent ++ r.2.map (Packet.connect net i) }
    | .error _ => none
  else none

/-- One step. `RPCServer::start` binds `INADDR_ANY`: a node reads what comes to the port of its
host. The result of `bind` is not looked at; where two nodes of a host have one port, either may
read. -/
def step [DecidableEq η] (net : Network ι η) (s : SocketCluster ι η) :
    Event ι → Option (SocketCluster ι η)
  | .input _ _ (.message _ _ _) => none
  | .input i up input => s.perform net i up input
  | .deliver i up n clock order => (s.sent[n]?).bind fun q =>
      if q.host = some (net.host i) ∧ q.port = htons (s.leaf i).nodePort then
        s.perform net i up (.message q.msg clock order) else none
  | .crash i =>
      if s.running i then some { s with running := Function.update s.running i false } else none

end SocketCluster

/-- A dotted address and a port of sixteen bits that can be bound. -/
structure Launch.Addressable (a : Launch) : Prop where
  dotted : (inetPton a.nodeIp).isSome = true
  positive : 0 < a.nodePort.toInt
  small : a.nodePort.toInt < 65536

/-- The address of every node leads from every host to the host it runs on, and no two nodes of a
host have the same port. -/
structure Installed {ι η : Type} (net : Network ι η) (launch : ι → Launch) : Prop where
  addressable : ∀ k, (launch k).Addressable
  routed : ∀ i k a, inetPton (launch k).nodeIp = some a →
    net.route (net.host i) a = some (net.host k)
  ports : ∀ i k, net.host i = net.host k → (launch i).nodePort = (launch k).nodePort → i = k

namespace Launch

variable {a b : Launch}

theorem Addressable.address (h : a.Addressable) :
    inetPton a.nodeIp = some (RPCClient.endpoint a.nodeIp a.nodePort).address := by
  obtain ⟨address,haddr⟩ := Option.isSome_iff_exists.mp h.dotted
  have hnul : a.nodeIp.takeWhile (fun b => decide (b ≠ 0)) = a.nodeIp := by
    rw [List.takeWhile_eq_self_iff]
    intro b hb
    rw [DottedQuad.inetPton_eq haddr] at hb
    exact decide_eq_true fun heq => DottedQuad.zero_notMem_print address (heq ▸ hb)
  rw [RPCClient.endpoint,hnul,haddr]
  rfl

theorem Addressable.port (h : a.Addressable) :
    ((htons a.nodePort).toNat : ℤ) = a.nodePort.toInt := by
  have hcond := BitVec.toInt_eq_toNat_cond a.nodePort.toBitVec
  change a.nodePort.toInt = _ at hcond
  have hport : (htons a.nodePort).toNat = a.nodePort.toBitVec.toNat % 65536 := rfl
  have hlow := h.positive
  have hhigh := h.small
  rw [hport]
  split at hcond
  · omega
  · omega

theorem Addressable.htons_inj (ha : a.Addressable) (hb : b.Addressable) :
    htons a.nodePort = htons b.nodePort ↔ a.nodePort = b.nodePort := by
  constructor
  · intro h
    have hport : a.nodePort.toInt = b.nodePort.toInt := by rw [← ha.port,← hb.port,h]
    exact Int32.toInt_inj.mp hport
  · exact congrArg htons

end Launch

namespace Cluster

variable {ι : Type} [DecidableEq ι] {launch : ι → Launch} {s t : Cluster ι}
  {history : List (Taken (Cluster ι) (Event ι))}

omit [DecidableEq ι] in
theorem Charts.address {i : ι} {a : KiviLeaf} (h : Charts launch i a) {n : PaxosNodeDescriptor}
    (hn : n ∈ a.entries) {p : Packet} (haddr : n.address = (p.nodeIp,p.nodePort)) :
    ∃ k, (p.nodeIp,p.nodePort) = ((launch k).nodeIp,(launch k).nodePort) := by
  obtain ⟨k,_,hk,_⟩ := h.entry hn
  exact ⟨k,haddr.symm.trans hk⟩

omit [DecidableEq ι] in
theorem request_address {i : ι} {a : KiviLeaf} (h : Charts launch i a)
    (hlists : ∀ k, a.Lists (launch k).nodeId) {up : Reachability} {input : Input}
    {r : KiviLeaf × List Packet} (hr : a.react up input = .ok r) (hpull : input ≠ .pull)
    (htold : ∀ m clock order, input = .message (.localSyncSelfPromotion m) clock order →
      ∃ k, m.leaderNodeId = (launch k).nodeId) {p : Packet} (hp : p ∈ r.2)
    {m : LocalSyncRequestMessage} (hm : p.msg = .localSyncRequest m) :
    ∃ k, (p.nodeIp,p.nodePort) = ((launch k).nodeIp,(launch k).nodePort) := by
  have hpulls := KiviLeaf.pulls_of_react hr hp hm
  cases input with
  | boot unset =>
    obtain rfl := Except.ok.inj hr
    cases hleader : a.getCurrentLeader unset with
    | none => simp [KiviLeaf.boot,hleader] at hp
    | some leader =>
      simp only [KiviLeaf.boot,hleader] at hp
      split at hp
      · obtain ⟨n,hfind,rfl⟩ := Option.map_eq_some_iff.mp hleader
        obtain ⟨rfl,_⟩ := PaxosNode.mem_sendMessage hp
        exact h.address (List.mem_append_left _ (find?_key hfind).1) rfl
      · simp at hp
  | pull => exact absurd rfl hpull
  | message msg clock order =>
    cases msg with
    | localSyncSelfPromotion res =>
      obtain ⟨k,hk⟩ := htold res clock order rfl
      have hlisted : a.Lists res.leaderNodeId := hk ▸ hlists k
      obtain ⟨n,hn,_,hleader⟩ := KiviLeaf.followLeader_entry hlisted clock.now
      obtain rfl := Except.ok.inj hr
      obtain ⟨rfl,_⟩ := PaxosNode.mem_sendMessage hp
      rw [hleader]
      exact h.address (List.mem_append_left _ hn) rfl
    | _ => cases hpulls
  | _ => cases hpulls

omit [DecidableEq ι] in
theorem packet_address {i : ι} {a : KiviLeaf} (h : Charts launch i a)
    (hlists : ∀ k, a.Lists (launch k).nodeId) {up : Reachability} {input : Input}
    {r : KiviLeaf × List Packet} (hr : a.react up input = .ok r) (hpull : input ≠ .pull)
    (htold : ∀ m clock order, input = .message (.localSyncSelfPromotion m) clock order →
      ∃ k, m.leaderNodeId = (launch k).nodeId) {p : Packet} (hp : p ∈ r.2) :
    ∃ k, (p.nodeIp,p.nodePort) = ((launch k).nodeIp,(launch k).nodePort) := by
  have hposts := KiviLeaf.react_posts hr p hp
  unfold KiviLeaf.Posts at hposts
  cases hm : p.msg with
  | localSyncRequest m => exact request_address h hlists hr hpull htold hp hm
  | heartBeat m =>
    simp only [hm] at hposts
    obtain ⟨_,_,_,n,hn,_,haddr⟩ := hposts
    exact h.address hn haddr
  | localSyncResponse m =>
    simp only [hm] at hposts
    obtain ⟨_,n,hn,_,_,haddr⟩ := hposts
    exact h.address hn haddr
  | localSyncPush m =>
    simp only [hm] at hposts
    obtain ⟨_,n,hn,_,haddr⟩ := hposts
    exact h.address hn haddr
  | localSyncSelfPromotion m =>
    simp only [hm] at hposts
    obtain ⟨_,n,hn,_,haddr⟩ := hposts
    exact h.address hn haddr
  | _ => simp only [hm] at hposts

/-! ### Agreement -/

section Agreement

variable {η : Type} {net : Network ι η} {w : SocketCluster ι η}

/-- The connection leads to the node that the packet is addressed to. -/
def Leads (launch : ι → Launch) (net : Network ι η) (q : Connection η) (p : Packet) : Prop :=
  q.msg = p.msg ∧ ∃ k, (p.nodeIp,p.nodePort) = ((launch k).nodeIp,(launch k).nodePort) ∧
    q.host = some (net.host k) ∧ q.port = htons (launch k).nodePort

structure Agrees (launch : ι → Launch) (net : Network ι η) (w : SocketCluster ι η)
    (s : Cluster ι) : Prop where
  leaf : w.leaf = s.leaf
  running : w.running = s.running
  sent : List.Forall₂ (Leads launch net) w.sent s.sent

omit [DecidableEq ι] in
theorem leads_connect (hnet : Installed net launch) (i : ι) {p : Packet}
    (h : ∃ k, (p.nodeIp,p.nodePort) = ((launch k).nodeIp,(launch k).nodePort)) :
    Leads launch net (p.connect net i) p := by
  obtain ⟨k,hk⟩ := h
  obtain ⟨hip,hport⟩ := Prod.mk.inj hk
  refine ⟨rfl,k,hk,?_,by rw [← hport]; rfl⟩
  rw [Packet.connect,hip,hport]
  exact hnet.routed i k _ (hnet.addressable k).address

omit [DecidableEq ι] in
/-- A node reads a connection exactly if the packet is addressed to it. -/
theorem Leads.here_iff (hnet : Installed net launch) {q : Connection η} {p : Packet}
    (h : Leads launch net q p) (i : ι) :
    (q.host = some (net.host i) ∧ q.port = htons (launch i).nodePort) ↔
      p.nodeIp = (launch i).nodeIp ∧ p.nodePort = (launch i).nodePort := by
  obtain ⟨_,k,hk,hhost,hport⟩ := h
  obtain ⟨hip,hportk⟩ := Prod.mk.inj hk
  rw [hhost,hport,hip,hportk,Option.some.injEq,
    (hnet.addressable k).htons_inj (hnet.addressable i)]
  constructor
  · rintro ⟨hsame,hports⟩
    obtain rfl := hnet.ports k i hsame hports
    exact ⟨rfl,rfl⟩
  · rintro ⟨hips,hports⟩
    refine ⟨?_,hports⟩
    obtain ⟨a,ha⟩ := Option.isSome_iff_exists.mp (hnet.addressable k).dotted
    have hhere := hnet.routed i i a (hips ▸ ha)
    exact Option.some.inj ((hnet.routed i k a ha).symm.trans hhere)

theorem Agrees.reacts (hnet : Installed net launch) (h : Agrees launch net w s) {i : ι}
    {up : Reachability} {input : Input} (hsent : ∀ r, (s.leaf i).react up input = .ok r →
      ∀ p ∈ r.2, ∃ k, (p.nodeIp,p.nodePort) = ((launch k).nodeIp,(launch k).nodePort)) :
    Option.Rel (Agrees launch net) (w.perform net i up input)
      (if s.running i then
        match (s.leaf i).react up input with
        | .ok r => some (s.reacted i r)
        | .error _ => none
      else none) := by
  rw [SocketCluster.perform,h.leaf,h.running]
  by_cases hrun : s.running i = true
  swap
  · simp only [if_neg hrun]
    exact .none
  simp only [if_pos hrun]
  cases hr : (s.leaf i).react up input with
  | error e => exact .none
  | ok r =>
    refine .some ⟨rfl,rfl,List.rel_append h.sent ?_⟩
    rw [List.forall₂_map_left_iff,List.forall₂_same]
    exact fun p hp => leads_connect hnet i (hsent r hr p hp)

/-- Whatever happens next, it happens on the sockets as in the cluster. -/
theorem Agrees.step [DecidableEq η] (hbook : FullBook launch) (hnet : Installed net launch)
    (hrun : Run step (Cluster.launch launch) history s) (h : Agrees launch net w s) {e : Event ι}
    (hpull : ∀ i up, e ≠ .input i up .pull) :
    Option.Rel (Agrees launch net) (w.step net e) (s.step e) := by
  have hcharted := charted_of_run hbook.toAddressBook hrun
  cases e with
  | crash i =>
    simp only [SocketCluster.step,Cluster.step,h.running]
    by_cases hi : s.running i = true
    · simp only [if_pos hi]
      exact .some ⟨h.leaf,rfl,h.sent⟩
    · simp only [if_neg hi]
      exact .none
  | input i up input =>
    have hreacts : (∀ msg clock order, input ≠ .message msg clock order) →
        Option.Rel (Agrees launch net) (w.perform net i up input) (if s.running i then
          match (s.leaf i).react up input with
          | .ok r => some (s.reacted i r)
          | .error _ => none
        else none) := by
      intro hin
      refine h.reacts hnet fun r hr p hp => packet_address (hcharted.leaves i)
        (lists_of_run hbook hrun i) hr ?_ ?_ hp
      · rintro rfl
        exact hpull i up rfl
      · intro m clock order heq
        exact absurd heq (hin _ _ _)
    cases input with
    | message msg clock order => exact .none
    | _ => exact hreacts (by simp)
  | deliver i up n clock order =>
    cases hp : s.sent[n]? with
    | none =>
      have hnone : w.sent[n]? = none := by
        rw [List.getElem?_eq_none_iff,h.sent.length_eq]
        exact List.getElem?_eq_none_iff.mp hp
      simp only [SocketCluster.step,Cluster.step,reaction,hp,hnone,Option.bind_none]
      exact .none
    | some p =>
      obtain ⟨q,hq,hflip⟩ := Transition.getElem?_of_forall₂ h.sent.flip hp
      have hleads : Leads launch net q p := hflip
      have hhere := hleads.here_iff hnet i
      rw [← (hcharted.leaves i).nodeIp,← (hcharted.leaves i).nodePort] at hhere
      simp only [SocketCluster.step,Cluster.step,reaction,hp,hq,Option.bind_some,h.leaf,hhere]
      by_cases haddr : p.nodeIp = (s.leaf i).nodeIp ∧ p.nodePort = (s.leaf i).nodePort
      swap
      · simp only [if_neg haddr,Option.bind_none]
        exact .none
      simp only [if_pos haddr,Option.bind_some,hleads.1]
      have hreact : s.reaction (.deliver i up n clock order) =
          some (i,up,.message p.msg clock order) := by
        simp only [reaction,hp,Option.bind_some,if_pos haddr]
      refine h.reacts hnet fun r hr p' hp' => packet_address (hcharted.leaves i)
        (lists_of_run hbook hrun i) hr (by simp) ?_ hp'
      intro m clock' order' heq
      rw [heq] at hreact
      obtain ⟨k,_,hk⟩ := hcharted.handled hreact
      exact ⟨k,hk⟩

/-- When every node registers every node and all are installed at dotted addresses and ports of
their own, the same events happen on the sockets and in the cluster in which the texts of
addresses are compared, and they leave the same nodes. -/
theorem sockets_agree {ι η : Type} [DecidableEq ι] [DecidableEq η] {launch : ι → Launch}
    (hbook : FullBook launch) {net : Network ι η} (hnet : Installed net launch)
    {es : List (Event ι)} (hpull : ∀ e ∈ es, ∀ i up, e ≠ .input i up .pull) :
    (exec (SocketCluster.step net) (SocketCluster.launch launch) es).map SocketCluster.nodes =
      (exec step (Cluster.launch launch) es).map fun s => (s.leaf,s.running) := by
  have hstart : Agrees launch net (SocketCluster.launch launch) (Cluster.launch launch) :=
    ⟨rfl,rfl,.nil⟩
  have hexec : Option.Rel (Agrees launch net) (exec (SocketCluster.step net) _ es) _ :=
    exec_related (fun e he _ _ _ hrun h => h.step hbook hnet hrun (hpull e he)) .nil hstart
  exact map_eq_of_rel hexec fun w s h => Prod.ext h.leaf h.running

end Agreement

theorem trio_addressable (k : Fin 3) : (trio k).Addressable := by
  refine ⟨?_,?_,?_⟩
  · exact (by decide +kernel : (inetPton (Bytes.ofString "127.0.0.1")).isSome = true)
  · revert k
    decide
  · revert k
    decide

def oneHost : Network (Fin 3) Unit := ⟨fun _ => (),fun _ _ => some ()⟩

theorem oneHost_installed : Installed oneHost trio where
  addressable := trio_addressable
  routed := fun _ _ _ _ => rfl
  ports := fun i k _ => by
    revert i k
    decide

/-- A push that is delivered over the sockets. -/
theorem sockets_agree_trio : ∃ w, exec (SocketCluster.step oneHost) (SocketCluster.launch trio)
      [.input firstNode reachable (.put [0x6B] [0x76] 5),
        .deliver secondNode reachable 0 ⟨6,6⟩ .stored] = some w ∧
    (w.leaf secondNode).kivi.getKvBatch.lookup [0x6B] = some [0x76] := by
  have hend : ((exec step (Cluster.launch trio)
      [.input firstNode reachable (.put [0x6B] [0x76] 5),
        .deliver secondNode reachable 0 ⟨6,6⟩ .stored]).any fun s =>
          decide ((s.leaf secondNode).kivi.getKvBatch.lookup [0x6B] = some [0x76])) = true := by
    decide +kernel
  obtain ⟨s,hs,hlook⟩ := Option.any_eq_true _ _ |>.mp hend
  have hpull : ∀ e ∈ ([.input firstNode reachable (.put [0x6B] [0x76] 5),
      .deliver secondNode reachable 0 ⟨6,6⟩ .stored] : List (Event (Fin 3))),
      ∀ i up, e ≠ .input i up .pull := by simp
  have hagree := sockets_agree trio_fullBook oneHost_installed hpull
  rw [hs,Option.map_some,Option.map_eq_some_iff] at hagree
  obtain ⟨w,hw,hnodes⟩ := hagree
  have hleaf : w.leaf = s.leaf := congrArg Prod.fst hnodes
  exact ⟨w,hw,hleaf ▸ of_decide_eq_true hlook⟩

end Cluster
end Kivi
