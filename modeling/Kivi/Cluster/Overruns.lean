import Kivi.Cluster.Wire

/-! Where the code faults on the sockets: in no store, and only in a read that fills the buffer. -/
namespace Kivi

open Transition (Run Taken)
open KiviLeaf (Holds)

theorem Message.zero_notMem_serialize {m : Message} {data : Bytes} (h : m.serialize = .ok data) :
    0 ∉ data := by
  obtain ⟨_,_,rfl⟩ := writable_of_serialize h
  exact Json.zero_notMem_write _

namespace RPCServer

theorem iteration_isOk_iff (parser : Json.Parser) {bytes : Bytes} (h0 : 0 ∉ bytes) :
    (∃ it, iteration parser bytes = .ok it) ↔ bytes.length < bufferSize := by
  by_cases hlt : bytes.length < bufferSize
  · refine iff_of_true ?_ hlt
    rw [iteration,cString_of_lt h0 hlt,except_bind_ok]
    cases MessageFactory.fromJson parser bytes with
    | ok msg => exact ⟨_,rfl⟩
    | error e => exact ⟨_,rfl⟩
  · refine iff_of_false ?_ hlt
    rw [iteration,cString_of_le h0 (Nat.le_of_not_lt hlt)]
    rintro ⟨it,hit⟩
    cases hit

end RPCServer

namespace WireCluster

variable {ι : Type} [DecidableEq ι] {launch : ι → Launch} {w w' : WireCluster ι}
  {history : List (Taken (WireCluster ι) (WireEvent ι))}

/-- The stores are caches, and the texts hold no NUL. -/
structure Sound (w : WireCluster ι) : Prop where
  stores : ∃ l, Holds 100 w.leaf l
  texts : ∀ x ∈ w.sent, 0 ∉ x.data

omit [DecidableEq ι] in
theorem Sound.close (h : Sound w) (n : ℕ) : Sound (w.close n) := ⟨h.stores,h.texts⟩

theorem Sound.reacted (h : Sound w) {i : ι} {up : Reachability} {input : Input}
    {r : KiviLeaf × List Packet} (hr : (w.leaf i).react up input = .ok r) :
    Sound (w.reacted i r) := by
  obtain ⟨l,hl⟩ := h.stores
  refine ⟨⟨_,hl.react (by decide) hr⟩,List.forall_mem_append.mpr ⟨h.texts,fun x hx => ?_⟩⟩
  obtain ⟨p,hp,htransmit⟩ := List.mem_filterMap.mp hx
  obtain ⟨data,hdata⟩ := KiviLeaf.serialize_of_react hr hp
  have hx' : x = ⟨p.nodeIp,p.nodePort,data⟩ := by
    simpa [Packet.transmit,RPCClient.send,hdata] using htransmit.symm
  rw [hx']
  exact Message.zero_notMem_serialize hdata

omit [DecidableEq ι] in
theorem Sound.react (h : Sound w) (i : ι) (up : Reachability) (input : Input) :
    ∃ r, (w.leaf i).react up input = .ok r := by
  obtain ⟨l,hl⟩ := h.stores
  obtain ⟨hcap,hrepresents⟩ := hl i
  obtain ⟨r,hr,_⟩ := KiviLeaf.react_represents up input (by omega) hrepresents
  exact ⟨r,hr⟩

theorem Sound.perform (h : Sound w) {i : ι} (hrun : w.running i = true) (up : Reachability)
    (input : Input) : ∃ v, w.perform i up input = some v ∧ Sound v ∧ v.running = w.running := by
  obtain ⟨r,hr⟩ := h.react i up input
  exact ⟨_,perform_eq_some.mpr ⟨hrun,r,hr,rfl⟩,h.reacted hr,rfl⟩

theorem Sound.performEach (h : Sound w) {i : ι} (hrun : w.running i = true) (up : Reachability)
    (clock : Clock) (order : HashOrder) (msgs : List Message) :
    ∃ v, msgs.foldlM (fun w msg => w.perform i up (.message msg clock order)) w = some v ∧
      Sound v := by
  induction msgs generalizing w with
  | nil => exact ⟨w,rfl,h⟩
  | cons msg msgs ih =>
    obtain ⟨u,hu,hsound,hrunning⟩ := h.perform hrun up (.message msg clock order)
    obtain ⟨v,hv,hv'⟩ := ih hsound (by rwa [hrunning])
    exact ⟨v,by rw [List.foldlM_cons,hu]; exact hv,hv'⟩

theorem Sound.step (parser : Json.Parser) (h : Sound w) {e : WireEvent ι}
    (hs : w.step parser e = some w') : Sound w' := by
  cases e with
  | crash i =>
    by_cases hrun : w.running i = true
    · simp only [WireCluster.step,if_pos hrun,Option.some.injEq] at hs
      subst w'
      exact ⟨h.stores,h.texts⟩
    · simp [WireCluster.step,hrun] at hs
  | input i up input =>
    have hperform : w.perform i up input = some w' := by
      cases input with
      | message msg clock order => simp [WireCluster.step] at hs
      | _ => exact hs
    obtain ⟨_,r,hr,rfl⟩ := perform_eq_some.mp hperform
    exact h.reacted hr
  | lose n =>
    obtain ⟨_,_,rfl⟩ := lose_eq_some.mp hs
    exact h.close n
  | receive i up n length clock order =>
    obtain ⟨x,it,_,_,hrun,_,_,_,hs⟩ := receive_eq_some hs
    obtain ⟨v,hv,hsound⟩ := (h.close n).performEach hrun up clock order it.handled
    rwa [Option.some.inj (hs.symm.trans hv)]

theorem sound_of_run (parser : Json.Parser)
    (hrun : Run (step parser) (WireCluster.launch launch) history w) : Sound w := by
  apply hrun.invariant
  · exact ⟨⟨_,KiviLeaf.holds_new fun _ => rfl⟩,by simp [WireCluster.launch]⟩
  · exact fun _ _ _ h hs => h.step parser hs

/-- A running node may do what it does by itself at any time, and read any part of a text that
was sent to it and is still there; a connection may break at any time. -/
def Enabled (w : WireCluster ι) : WireEvent ι → Prop
  | .input _ _ (.message _ _ _) => False
  | .input i _ _ => w.running i = true
  | .receive i _ n _ _ _ => n ∉ w.closed ∧ w.running i = true ∧ ∃ x, w.sent[n]? = some x ∧
      x.nodeIp = (w.leaf i).nodeIp ∧ x.nodePort = (w.leaf i).nodePort
  | .lose n => n < w.sent.length ∧ n ∉ w.closed
  | .crash i => w.running i = true

def Overruns (w : WireCluster ι) (e : WireEvent ι) : Prop :=
  ∃ i up n length clock order x, e = .receive i up n length clock order ∧
    w.sent[n]? = some x ∧ RPCServer.bufferSize ≤ (x.data.take length).length

theorem Sound.receive (parser : Json.Parser) (h : Sound w) {i : ι} {n : ℕ} (hopen : n ∉ w.closed)
    (hrun : w.running i = true) {x : Transmission} (hx : w.sent[n]? = some x)
    (hip : x.nodeIp = (w.leaf i).nodeIp)
    (hport : x.nodePort = (w.leaf i).nodePort) (up : Reachability) (length : ℕ) (clock : Clock)
    (order : HashOrder) :
    (∃ v, w.step parser (.receive i up n length clock order) = some v) ↔
      (x.data.take length).length < RPCServer.bufferSize := by
  have h0 : 0 ∉ x.data.take length := fun hz =>
    h.texts x (List.mem_of_getElem? hx) (List.mem_of_mem_take hz)
  rw [← RPCServer.iteration_isOk_iff parser h0]
  constructor
  · rintro ⟨v,hv⟩
    obtain ⟨y,it,hy,_,_,_,_,hit,_⟩ := receive_eq_some hv
    obtain rfl : x = y := Option.some.inj (hx.symm.trans hy)
    exact ⟨it,hit⟩
  · rintro ⟨it,hit⟩
    obtain ⟨v,hv,_⟩ := (h.close n).performEach hrun up clock order it.handled
    have haddr : n ∉ w.closed ∧ w.running i = true ∧ x.nodeIp = (w.leaf i).nodeIp ∧
        x.nodePort = (w.leaf i).nodePort := ⟨hopen,hrun,hip,hport⟩
    refine ⟨v,?_⟩
    simp only [WireCluster.step,hx,Option.bind_some,if_pos haddr,iteration,hit,hv]

/-- In every state that is reached on the sockets, wherever texts are cut off, no store faults
whatever a leaf reacts to; and what can happen has an outcome unless it is a read that fills the
buffer. -/
theorem faults_iff_overruns {ι : Type} [DecidableEq ι] (parser : Json.Parser)
    {launch : ι → Launch} {history : List (Taken (WireCluster ι) (WireEvent ι))}
    {w : WireCluster ι} (hrun : Run (step parser) (WireCluster.launch launch) history w) :
    (∀ i up input, ∃ r, (w.leaf i).react up input = .ok r) ∧
      ∀ e, w.Enabled e → (w.step parser e = none ↔ w.Overruns e) := by
  have hsound := sound_of_run parser hrun
  refine ⟨hsound.react,fun e he => ?_⟩
  cases e with
  | crash i =>
    have hstep : w.step parser (.crash i) ≠ none := by
      simp [WireCluster.step,show w.running i = true from he]
    refine iff_of_false hstep ?_
    rintro ⟨_,_,_,_,_,_,_,hevent,_⟩
    cases hevent
  | lose n =>
    have hstep : w.step parser (.lose n) = some (w.close n) := if_pos he
    refine iff_of_false (by simp [hstep]) ?_
    rintro ⟨_,_,_,_,_,_,_,hevent,_⟩
    cases hevent
  | input i up input =>
    have hperform : w.running i = true ∧
        w.step parser (.input i up input) = w.perform i up input := by
      cases input with
      | message msg clock order => exact he.elim
      | _ => exact ⟨he,rfl⟩
    obtain ⟨v,hv,_⟩ := hsound.perform hperform.1 up input
    refine iff_of_false (by simp [hperform.2,hv]) ?_
    rintro ⟨_,_,_,_,_,_,_,hevent,_⟩
    cases hevent
  | receive i up n length clock order =>
    obtain ⟨hopen,hrunning,x,hx,hip,hport⟩ := he
    have hiff := hsound.receive parser hopen hrunning hx hip hport up length clock order
    rw [← Option.not_isSome_iff_eq_none,Option.isSome_iff_exists,hiff,Nat.not_lt]
    constructor
    · exact fun hle => ⟨i,up,n,length,clock,order,x,rfl,hx,hle⟩
    · rintro ⟨_,_,_,_,_,_,y,hevent,hy,hle⟩
      cases hevent
      obtain rfl : x = y := Option.some.inj (hx.symm.trans hy)
      exact hle

/-- The push of seven hundred control characters, six bytes of text each, overruns the buffer of
the second node. -/
theorem faults_iff_overruns_trio : ∃ history w e,
    Run (step .reference) (WireCluster.launch Cluster.trio) history w ∧ w.Enabled e ∧
      w.step .reference e = none ∧ ∃ r, (w.leaf Cluster.firstNode).react Cluster.reachable
        (.get (some [0x6B])) = .ok r := by
  have hend : ((Transition.exec (step .reference) (WireCluster.launch Cluster.trio)
      [.input Cluster.firstNode Cluster.reachable (.put [0x6B] (List.replicate 700 1) 5)]).any
        fun w => decide (0 ∉ w.closed) && w.running Cluster.secondNode && (w.sent[0]?).any fun x =>
          decide (x.nodeIp = (w.leaf Cluster.secondNode).nodeIp ∧
            x.nodePort = (w.leaf Cluster.secondNode).nodePort ∧
            RPCServer.bufferSize ≤ (x.data.take 4096).length)) = true := by
    decide +kernel
  obtain ⟨history,w,hrun,_,hw⟩ := Run.of_exec_any _ hend
  simp only [Bool.and_eq_true,Option.any_eq_true,decide_eq_true_eq] at hw
  obtain ⟨⟨hopen,hrunning⟩,x,hx,hip,hport,hle⟩ := hw
  have henabled : w.Enabled (.receive Cluster.secondNode Cluster.reachable 0 4096 ⟨6,6⟩ .stored) :=
    ⟨hopen,hrunning,x,hx,hip,hport⟩
  have hfaults := faults_iff_overruns .reference hrun
  exact ⟨history,w,_,hrun,henabled,(hfaults.2 _ henabled).mpr ⟨_,_,_,_,_,_,x,rfl,hx,hle⟩,
    hfaults.1 _ _ _⟩

end WireCluster
end Kivi
