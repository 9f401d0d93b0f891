import Kivi.Leaf.Machine
import Kivi.Library.Transition

/-! The cluster: the leaves, and a network on which every packet ever sent stays, so that it
may be delivered any number of times, in any order, or never. -/
namespace Kivi

open Transition (Run Taken)

/-- The command line of `main` with the nodes it registers and the leader it watches; the
last two fields are what `current_leader` and `last_sync_time` hold before they are assigned. -/
structure Launch where
  nodeId : Int64
  nodeIp : Bytes
  nodePort : Int32
  leafRole : Int32
  isProposer : Bool
  leaderId : Int32
  cluster : List PaxosNodeSharableDescriptor
  registeredAt : Int64
  watched : Int64
  currentLeader : PaxosNodeDescriptor
  lastSyncTime : Int64

def Launch.leaf (a : Launch) : KiviLeaf :=
  let node := KiviLeaf.new a.nodeIp a.nodePort a.nodeId a.leafRole a.isProposer a.leaderId
    a.currentLeader a.lastSyncTime
  let registered := node.toPaxosNode.registerClusterNodes a.registeredAt a.cluster
  { node with toPaxosNode := registered.setLocalClusterLeader a.watched }

structure Cluster (ι : Type) where
  leaf : ι → KiviLeaf
  running : ι → Bool
  sent : List Packet

/-- An input of one node, the delivery of the `n`-th packet, or the end of a node. -/
inductive Event (ι : Type)
  | input (i : ι) (up : Reachability) (input : Input)
  | deliver (i : ι) (up : Reachability) (n : ℕ) (clock : Clock) (order : HashOrder)
  | crash (i : ι)

namespace Cluster

variable {ι : Type}

def launch (launch : ι → Launch) : Cluster ι := ⟨fun i => (launch i).leaf,fun _ => true,[]⟩

/-- What an event has which node react to. Messages come from the network only, and only to
the address they were sent to. -/
def reaction (s : Cluster ι) : Event ι → Option (ι × Reachability × Input)
  | .input _ _ (.message _ _ _) => none
  | .input i up input => some (i,up,input)
  | .deliver i up n clock order => (s.sent[n]?).bind fun p =>
      if p.nodeIp = (s.leaf i).nodeIp ∧ p.nodePort = (s.leaf i).nodePort then
        some (i,up,.message p.msg clock order) else none
  | .crash _ => none

variable [DecidableEq ι]

def reacted (i : ι) (r : KiviLeaf × List Packet) (s : Cluster ι) : Cluster ι :=
  { s with leaf := Function.update s.leaf i r.1, sent := s.sent ++ r.2 }

def crashed (i : ι) (s : Cluster ι) : Cluster ι :=
  { s with running := Function.update s.running i false }

/-- One step; a node that has crashed takes none. -/
def step (s : Cluster ι) : Event ι → Option (Cluster ι)
  | .crash i => if s.running i then some (s.crashed i) else none
  | e => (s.reaction e).bind fun (i,up,input) =>
      if s.running i then
        match (s.leaf i).react up input with
        | .ok r => some (s.reacted i r)
        | .error _ => none
      else none

/-- Everything a step can be. -/
theorem step_cases {s t : Cluster ι} {e : Event ι} (h : s.step e = some t) :
    (∃ i, e = .crash i ∧ s.running i = true ∧ t = s.crashed i) ∨
    ∃ i up input r, s.reaction e = some (i,up,input) ∧ s.running i = true ∧
      (s.leaf i).react up input = .ok r ∧ t = s.reacted i r := by
  have key : ∀ o : Option (ι × Reachability × Input), (o.bind fun (i,up,input) =>
      if s.running i then
        match (s.leaf i).react up input with
        | .ok r => some (s.reacted i r)
        | .error _ => none
      else none) = some t → ∃ i up input r, o = some (i,up,input) ∧ s.running i = true ∧
        (s.leaf i).react up input = .ok r ∧ t = s.reacted i r := by
    intro o ho
    obtain ⟨⟨i,up,input⟩,rfl,hi⟩ := Option.bind_eq_some_iff.mp ho
    by_cases hrun : s.running i = true
    · simp only [if_pos hrun] at hi
      cases hreact : (s.leaf i).react up input with
      | error e => simp [hreact] at hi
      | ok r =>
        simp only [hreact,Option.some.injEq] at hi
        exact ⟨i,up,input,r,rfl,hrun,hreact,hi.symm⟩
    · simp [hrun] at hi
  cases e with
  | crash i =>
    left
    by_cases hrun : s.running i = true
    · simp only [step,if_pos hrun,Option.some.injEq] at h
      exact ⟨i,rfl,hrun,h.symm⟩
    · simp [step,hrun] at h
  | input i up input => exact .inr (key _ h)
  | deliver i up n clock order => exact .inr (key _ h)

theorem step_of_reaction {s : Cluster ι} {e : Event ι} {i : ι} {up : Reachability}
    {input : Input} {r : KiviLeaf × List Packet} (h : s.reaction e = some (i,up,input))
    (hrun : s.running i = true) (hr : (s.leaf i).react up input = .ok r) :
    s.step e = some (s.reacted i r) := by
  cases e with
  | crash j => simp [reaction] at h
  | input j up' input' => simp only [step,h,Option.bind_some,if_pos hrun,hr]
  | deliver j up' n clock order => simp only [step,h,Option.bind_some,if_pos hrun,hr]

omit [DecidableEq ι] in
theorem reaction_cases {s : Cluster ι} {e : Event ι} {i : ι} {up : Reachability} {input : Input}
    (h : s.reaction e = some (i,up,input)) :
    (e = .input i up input ∧ ∀ msg clock order, input ≠ .message msg clock order) ∨
    ∃ n p clock order, e = .deliver i up n clock order ∧ p ∈ s.sent ∧
      p.nodeIp = (s.leaf i).nodeIp ∧ p.nodePort = (s.leaf i).nodePort ∧
      input = .message p.msg clock order := by
  cases e with
  | crash j => simp [reaction] at h
  | input j up' input' =>
    left
    cases input' with
    | message msg clock order => simp [reaction] at h
    | _ =>
      simp only [reaction,Option.some.injEq,Prod.mk.injEq] at h
      obtain ⟨rfl,rfl,rfl⟩ := h
      exact ⟨rfl,by simp⟩
  | deliver j up' n clock order =>
    right
    simp only [reaction,Option.bind_eq_some_iff] at h
    obtain ⟨p,hp,hi⟩ := h
    by_cases haddr : p.nodeIp = (s.leaf j).nodeIp ∧ p.nodePort = (s.leaf j).nodePort
    · rw [if_pos haddr,Option.some.injEq] at hi
      simp only [Prod.mk.injEq] at hi
      obtain ⟨rfl,rfl,rfl⟩ := hi
      exact ⟨n,p,clock,order,rfl,List.mem_of_getElem? hp,haddr.1,haddr.2,rfl⟩
    · simp [haddr] at hi

omit [DecidableEq ι] in
theorem reaction_input {s : Cluster ι} {e : Event ι} {i : ι} {up : Reachability} {input : Input}
    (h : s.reaction e = some (i,up,input))
    (hin : ∀ msg clock order, input ≠ .message msg clock order) : e = .input i up input := by
  rcases reaction_cases h with ⟨he,_⟩ | ⟨_,_,_,_,_,_,_,_,hmsg⟩
  · exact he
  · exact absurd hmsg (hin _ _ _)

omit [DecidableEq ι] in
theorem reaction_message {s : Cluster ι} {e : Event ι} {i : ι} {up : Reachability}
    {msg : Message} {clock : Clock} {order : HashOrder}
    (h : s.reaction e = some (i,up,.message msg clock order)) : ∃ p ∈ s.sent, p.msg = msg := by
  rcases reaction_cases h with ⟨_,hnot⟩ | ⟨n,p,_,_,_,hp,_,_,hmsg⟩
  · exact absurd rfl (hnot msg clock order)
  · simp only [Input.message.injEq] at hmsg
    exact ⟨p,hp,hmsg.1.symm⟩

variable {s t c₀ : Cluster ι} {e : Event ι} {history : List (Taken (Cluster ι) (Event ι))}

@[simp] theorem reacted_self (i : ι) (r : KiviLeaf × List Packet) (s : Cluster ι) :
    (s.reacted i r).leaf i = r.1 := by simp [reacted]

theorem reacted_ne {i j : ι} (h : j ≠ i) (r : KiviLeaf × List Packet) (s : Cluster ι) :
    (s.reacted i r).leaf j = s.leaf j := by simp [reacted,h]

@[simp] theorem reacted_sent (i : ι) (r : KiviLeaf × List Packet) (s : Cluster ι) :
    (s.reacted i r).sent = s.sent ++ r.2 := rfl
@[simp] theorem reacted_running (i : ι) (r : KiviLeaf × List Packet) (s : Cluster ι) :
    (s.reacted i r).running = s.running := rfl
@[simp] theorem crashed_leaf (i : ι) (s : Cluster ι) : (s.crashed i).leaf = s.leaf := rfl
@[simp] theorem crashed_sent (i : ι) (s : Cluster ι) : (s.crashed i).sent = s.sent := rfl

theorem reacted_same {β : Type*} {f : KiviLeaf → β} {i : ι} {r : KiviLeaf × List Packet}
    (h : f r.1 = f (s.leaf i)) (j : ι) : f ((s.reacted i r).leaf j) = f (s.leaf j) := by
  by_cases hj : j = i
  · subst j
    rw [reacted_self,h]
  · rw [reacted_ne hj]

/-- A property of single leaves that every reaction keeps is kept by every step. -/
theorem leaf_step {P : KiviLeaf → Prop}
    (hP : ∀ up input s r, P s → KiviLeaf.react up input s = .ok r → P r.1)
    (h : s.step e = some t) (i : ι) (hs : P (s.leaf i)) : P (t.leaf i) := by
  rcases step_cases h with ⟨j,_,_,rfl⟩ | ⟨j,up,input,r,_,_,hr,rfl⟩
  · exact hs
  · by_cases hij : i = j
    · subst j
      rw [reacted_self]
      exact hP up input _ r hs hr
    · rwa [reacted_ne hij]

theorem running_step (h : s.step e = some t) {i : ι} (hi : t.running i = true) :
    s.running i = true := by
  rcases step_cases h with ⟨j,_,_,rfl⟩ | ⟨j,up,input,r,_,_,_,rfl⟩
  · by_cases hij : i = j
    · subst j
      simp [crashed] at hi
    · simpa [crashed,hij] using hi
  · exact hi

theorem running_of_run (hrun : Run step c₀ history s) {i : ι} (hi : s.running i = true)
    {x : Taken (Cluster ι) (Event ι)} (hx : x ∈ history) : x.pre.running i = true := by
  induction hrun with
  | nil => simp at hx
  | snoc hrun hstep ih =>
    have hpre := running_step hstep hi
    rcases List.mem_cons.mp hx with rfl | hx
    · exact hpre
    · exact ih hpre hx

theorem sent_step (h : s.step e = some t) : s.sent <+: t.sent := by
  rcases step_cases h with ⟨i,_,_,rfl⟩ | ⟨i,up,input,r,_,_,_,rfl⟩
  · exact List.prefix_refl _
  · exact List.prefix_append _ _

theorem sent_of_run (hrun : Run step c₀ history s) {x : Taken (Cluster ι) (Event ι)}
    (hx : x ∈ history) : x.post.sent <+: s.sent :=
  hrun.mono (R := fun s t => s.sent <+: t.sent) (fun _ => List.prefix_refl _) List.IsPrefix.trans
    (fun _ _ _ h => sent_step h) hx

/-! ### The cluster of the usage comment -/

def trioIds : Fin 3 → Int64
  | 0 => 10000
  | 1 => 10001
  | 2 => 10002

def trioPorts : Fin 3 → Int32
  | 0 => 5000
  | 1 => 5001
  | 2 => 5002

/-- The three command lines of `main`, with clocks at zero. -/
def trio (k : Fin 3) : Launch where
  nodeId := trioIds k
  nodeIp := Bytes.ofString "127.0.0.1"
  nodePort := trioPorts k
  leafRole := if k = 0 then localLeader else promotionReadyReplica
  isProposer := decide (k = 0)
  leaderId := 10000
  cluster := [0,1,2].map fun j => ⟨trioIds j,Bytes.ofString "127.0.0.1",trioPorts j⟩
  registeredAt := 0
  watched := 10000
  currentLeader := ⟨0,[],0,0,0,false⟩
  lastSyncTime := 0

def firstNode : Fin 3 := 0
def secondNode : Fin 3 := 1
def thirdNode : Fin 3 := 2

def reachable : Reachability := fun _ _ => true

def unreachable : Reachability := fun _ _ => false

end Cluster
end Kivi
