import Kivi.Leaf.Writes
import Kivi.Cluster.System

/-! Where the data of a cluster comes from: every pair in a store or on the network was put
by a client at a node that took itself for the leader. -/
namespace Kivi

open Transition (Run Taken)
open RecencyCache (Assoc)
open RestController (acceptsPut)
open KiviLeaf (Holds)

namespace Cluster

variable {ι : Type} [DecidableEq ι] {capacity : ℕ} {c₀ s t : Cluster ι}
  {history : List (Taken (Cluster ι) (Event ι))} {l : ι → Assoc Bytes Bytes}

structure Fresh (capacity : ℕ) (c : Cluster ι) : Prop where
  stores : ∀ i, (c.leaf i).kivi = .new capacity
  sent : c.sent = []

/-- Before, a client put this pair at a node that was its own leader, with neither part empty. -/
def AcceptedPut (history : List (Taken (Cluster ι) (Event ι))) (k v : Bytes) : Prop :=
  k ≠ [] ∧ v ≠ [] ∧ ∃ x ∈ history, ∃ i up now, x.event = .input i up (.put k v now) ∧
    acceptsPut (x.pre.leaf i) = true

omit [DecidableEq ι] in
theorem AcceptedPut.cons {x : Taken (Cluster ι) (Event ι)} {k v : Bytes}
    (h : AcceptedPut history k v) : AcceptedPut (x :: history) k v := by
  obtain ⟨hk,hv,y,hy,hput⟩ := h
  exact ⟨hk,hv,y,List.mem_cons_of_mem _ hy,hput⟩

/-- All stored and all sent data has been accepted. -/
structure Sourced (history : List (Taken (Cluster ι) (Event ι))) (s : Cluster ι)
    (l : ι → Assoc Bytes Bytes) : Prop where
  stored : ∀ i k v, (l i).lookup k = some v → AcceptedPut history k v
  sent : ∀ p ∈ s.sent, ∀ k v, p.msg.Carries k v → AcceptedPut history k v

omit [DecidableEq ι] in
theorem Sourced.writes (h : Sourced history s l) {e : Event ι} {i : ι} {up : Reachability}
    {input : Input} (hreact : s.reaction e = some (i,up,input)) {k v : Bytes}
    (hmem : ⟨k,v⟩ ∈ input.writes (s.leaf i)) : AcceptedPut (⟨s,e,t⟩ :: history) k v := by
  rcases Input.mem_writes hmem with ⟨msg,clock,order,rfl,hcarries⟩ | ⟨now,rfl,hacc,hk,hv⟩
  · obtain ⟨p,hp,rfl⟩ := reaction_message hreact
    exact (h.sent p hp k v hcarries).cons
  · obtain rfl := reaction_input hreact (by simp)
    exact ⟨hk,hv,_,List.mem_cons_self,i,up,now,rfl,hacc⟩

omit [DecidableEq ι] in
theorem Sourced.sends (h : Sourced history s l) (hl : Holds capacity s.leaf l) {e : Event ι}
    {i : ι} {up : Reachability} {input : Input} {r : KiviLeaf × List Packet}
    (hreact : s.reaction e = some (i,up,input)) (hr : (s.leaf i).react up input = .ok r)
    {p : Packet} (hp : p ∈ r.2) {k v : Bytes} (hcarries : p.msg.Carries k v) :
    AcceptedPut (⟨s,e,t⟩ :: history) k v := by
  have hsends := (KiviLeaf.react_reaction hr).sends p hp
  cases hmsg : p.msg with
  | localSyncPush m =>
    rw [hmsg] at hsends hcarries
    obtain ⟨_,rfl,hacc,hk,hv⟩ := hsends
    obtain ⟨rfl,rfl⟩ := hcarries
    exact h.writes hreact (by simp [Input.writes,hacc,hk,hv])
  | localSyncResponse m =>
    rw [hmsg] at hsends hcarries
    obtain ⟨_,_,clock,order,_,hpayload⟩ := hsends
    obtain ⟨ts,hts⟩ := hcarries
    rw [hpayload] at hts
    have hstored := order.mem_arrange.mp (LocalSyncPayload.lookup_of_mem_loadFromMap hts)
    rw [hl.lookup] at hstored
    exact (h.stored i k v hstored).cons
  | _ => simp [hmsg,Message.Carries] at hcarries

theorem Sourced.reacted (h : Sourced history s l) (hl : Holds capacity s.leaf l) {e : Event ι}
    {i : ι} {up : Reachability} {input : Input} {r : KiviLeaf × List Packet}
    (hreact : s.reaction e = some (i,up,input)) (hr : (s.leaf i).react up input = .ok r) :
    Sourced (⟨s,e,s.reacted i r⟩ :: history) (s.reacted i r)
      (Function.update l i (input.cacheAfter (s.leaf i) (l i))) where
  stored := by
    intro j k v hlook
    by_cases hj : j = i
    · subst j
      rw [Function.update_self] at hlook
      rcases Input.lookup_cacheAfter input hlook with hmem | hold
      · exact h.writes hreact hmem
      · exact (h.stored i k v hold).cons
    · rw [Function.update_of_ne hj] at hlook
      exact (h.stored j k v hlook).cons
  sent := by
    intro p hp k v hcarries
    rcases List.mem_append.mp hp with hp | hp
    · exact (h.sent p hp k v hcarries).cons
    · exact h.sends hl hreact hr hp hcarries

/-- The stores hold reference caches, and their data and all data sent is accounted for. -/
theorem sourced_of_run (hc : 1 ≤ capacity) (h₀ : Fresh capacity c₀)
    (hrun : Run step c₀ history s) : ∃ l, Holds capacity s.leaf l ∧ Sourced history s l := by
  apply hrun.history_invariant
  · exact ⟨_,KiviLeaf.holds_new h₀.stores,⟨by simp,by simp [h₀.sent]⟩⟩
  · rintro history s e t _ ⟨l,hl,hsourced⟩ hstep
    rcases step_cases hstep with ⟨i,_,_,rfl⟩ | ⟨i,up,input,r,hreact,_,hr,rfl⟩
    · exact ⟨l,hl,⟨fun j k v h => (hsourced.stored j k v h).cons,
        fun p hp k v h => (hsourced.sent p hp k v h).cons⟩⟩
    · exact ⟨_,hl.react hc hr,hsourced.reacted hl hreact hr⟩

/-- In every reachable state each pair in a store, and each pair a message under way carries,
is the key and the value of one accepted request. -/
theorem no_thin_air {ι : Type} [DecidableEq ι] {capacity : ℕ} (hc : 1 ≤ capacity) {c₀ s : Cluster ι}
    (h₀ : Fresh capacity c₀) {history : List (Taken (Cluster ι) (Event ι))}
    (hrun : Run step c₀ history s) :
    (∀ i k v, (s.leaf i).kivi.getKvBatch.lookup k = some v → AcceptedPut history k v) ∧
      ∀ p ∈ s.sent, ∀ k v, p.msg.Carries k v → AcceptedPut history k v := by
  obtain ⟨l,hl,hsourced⟩ := sourced_of_run hc h₀ hrun
  refine ⟨fun i k v h => ?_,hsourced.sent⟩
  rw [hl.lookup] at h
  exact hsourced.stored i k v h

theorem trio_fresh : Fresh 100 (Cluster.launch trio) := ⟨fun _ => rfl,rfl⟩

theorem no_thin_air_trio : ∃ history s, Run step (Cluster.launch trio) history s ∧
    (s.leaf 0).kivi.getKvBatch.lookup [0x6B] = some [0x76] ∧ AcceptedPut history [0x6B] [0x76] := by
  have hend : ((Transition.exec step (Cluster.launch trio)
      [.input 0 unreachable (.put [0x6B] [0x76] 5)]).any fun s =>
        decide ((s.leaf 0).kivi.getKvBatch.lookup [0x6B] = some [0x76])) = true := by
    decide +kernel
  obtain ⟨history,s,hrun,_,hs⟩ := Run.of_exec_any _ hend
  have hlook := of_decide_eq_true hs
  exact ⟨history,s,hrun,hlook,(no_thin_air (by decide) trio_fresh hrun).1 0 _ _ hlook⟩

end Cluster
end Kivi
