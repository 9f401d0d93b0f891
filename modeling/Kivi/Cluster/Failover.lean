import Kivi.Cluster.Provenance
import Kivi.Cluster.Election

/-! What a replica still holds when it becomes leader. While fewer keys than the capacity are
written, every store is a map to which each step assigns what it writes. -/
namespace Kivi

open Transition (Run Taken)
open RecencyCache (Assoc assign)
open RestController (acceptsPut)

namespace Cluster

variable {ι : Type} [DecidableEq ι] {capacity : ℕ} {c₀ s t : Cluster ι} {e : Event ι}
  {history : List (Taken (Cluster ι) (Event ι))} {ks : Finset Bytes}

def writesAt (s : Cluster ι) (e : Event ι) (i : ι) : List (Σ _ : Bytes, Bytes) :=
  match s.reaction e with
  | some (j,_,input) => if j = i then input.writes (s.leaf j) else []
  | none => []

def stored (s : Cluster ι) (i : ι) (k : Bytes) : Option Bytes :=
  (s.leaf i).kivi.getKvBatch.lookup k

def WritesOnly (ks : Finset Bytes) (history : List (Taken (Cluster ι) (Event ι))) : Prop :=
  ∀ k v, AcceptedPut history k v → k ∈ ks

omit [DecidableEq ι] in
theorem WritesOnly.tail {x : Taken (Cluster ι) (Event ι)} (h : WritesOnly ks (x :: history)) :
    WritesOnly ks history := fun k v hput => h k v hput.cons

theorem stored_step (hc : 1 ≤ capacity) (h₀ : Fresh capacity c₀) (hcard : ks.card ≤ capacity)
    (hrun : Run step c₀ history s) (hstep : s.step e = some t)
    (hks : WritesOnly ks (⟨s,e,t⟩ :: history)) (i : ι) (k : Bytes) :
    t.stored i k = assign (s.writesAt e i) (s.stored i) k := by
  obtain ⟨l,hl,hsourced⟩ := sourced_of_run hc h₀ hrun
  have hstored : s.stored i = fun k => (l i).lookup k := funext (hl.lookup i)
  rcases step_cases hstep with ⟨j,rfl,_,rfl⟩ | ⟨j,up,input,r,hreact,_,hr,rfl⟩
  · rfl
  have hafter := hl.react hc hr
  have hlookup : (s.reacted j r).stored i k =
      (Function.update l j (input.cacheAfter (s.leaf j) (l j)) i).lookup k := hafter.lookup i k
  rw [hlookup,hstored,writesAt,hreact]
  by_cases hij : i = j
  swap
  · rw [Function.update_of_ne hij]
    simp [Ne.symm hij]
  subst j
  have hwrites : ∀ w ∈ input.writes (s.leaf i), w.1 ∈ ks := fun w hw =>
    hks w.1 w.2 (hsourced.writes hreact hw)
  have hwithin : RecencyCache.Within ks (l i) := RecencyCache.within_of_lookup fun k v h =>
    hks k v (hsourced.stored i k v h).cons
  rw [Function.update_self,
    Input.lookup_cacheAfter_within (by rw [(hl i).1]; exact hcard) hwithin input hwrites k]
  simp

/-- A value survives all steps that write nothing else under its key. -/
theorem stored_of_writes_agree (hc : 1 ≤ capacity) (h₀ : Fresh capacity c₀)
    (hcard : ks.card ≤ capacity) {after before : List (Taken (Cluster ι) (Event ι))} {i : ι}
    {k v : Bytes} (hrun : Run step c₀ (after ++ before) s) (hks : WritesOnly ks (after ++ before))
    (hbase : ∀ m, Run step c₀ before m → m.stored i k = some v)
    (hagree : ∀ x ∈ after, ∀ w, ⟨k,w⟩ ∈ x.pre.writesAt x.event i → w = v) :
    s.stored i k = some v := by
  induction after generalizing s with
  | nil => exact hbase s hrun
  | cons x after ih =>
    obtain ⟨rfl,hstep,hbefore⟩ := hrun.uncons
    have hpre := ih hbefore hks.tail fun y hy => hagree y (List.mem_cons_of_mem _ hy)
    rw [stored_step hc h₀ hcard hbefore hstep hks]
    exact RecencyCache.assign_of_agree (hagree x List.mem_cons_self) hpre

/-- A client put `(k,v)` at node `j` and was answered with status 200. -/
def Acknowledged (x : Taken (Cluster ι) (Event ι)) (j : ι) (k v : Bytes) : Prop :=
  ∃ up now r, x.event = .input j up (.put k v now) ∧
    RestController.put up now k v (x.pre.leaf j) = .ok r ∧ r.2.2.status = 200

def HandlesFrom (x y : Taken (Cluster ι) (Event ι)) (i : ι) : Prop :=
  ∃ up n clock order, y.event = .deliver i up n clock order ∧
    x.pre.sent.length ≤ n ∧ n < x.post.sent.length

theorem Acknowledged.packets {x : Taken (Cluster ι) (Event ι)} {j : ι} {k v : Bytes}
    (hack : Acknowledged x j k v) (hstep : x.pre.step x.event = some x.post) :
    ∃ more, x.post.sent = x.pre.sent ++ more ∧
      ∀ p ∈ more, ∃ m, p.msg = .localSyncPush m ∧ m.key = k ∧ m.value = v := by
  obtain ⟨up,now,⟨leaf,packets,response⟩,hevent,hput,hstatus⟩ := hack
  rw [hevent] at hstep
  rcases step_cases hstep with ⟨_,he,_,_⟩ | ⟨_,_,_,r,hreact,_,hr,hpost⟩
  · simp at he
  simp only [reaction,Option.some.injEq,Prod.mk.injEq] at hreact
  obtain ⟨rfl,rfl,rfl⟩ := hreact
  simp only [KiviLeaf.react,hput,except_bind_ok,except_pure,Except.ok.injEq] at hr
  subst r
  refine ⟨packets,by rw [hpost]; rfl,fun p hp => ?_⟩
  rcases KiviLeaf.put_cases hput with ⟨_,_,_,hrefused⟩ | ⟨_,kivi,_,_,rfl⟩
  · exact absurd hstatus hrefused
  · obtain ⟨n,_,rfl,_⟩ := PaxosNode.mem_sendAll hp
    exact ⟨_,rfl,rfl,rfl⟩

theorem HandlesFrom.writesAt {x y : Taken (Cluster ι) (Event ι)}
    {middle before : List (Taken (Cluster ι) (Event ι))} {i j : ι} {k v : Bytes}
    (h : HandlesFrom x y i) (hack : Acknowledged x j k v)
    (hrun : Run step c₀ (y :: (middle ++ x :: before)) s) :
    y.pre.writesAt y.event i = [⟨k,v⟩] := by
  obtain ⟨rfl,hstep,hpre⟩ := hrun.uncons
  obtain ⟨up,n,clock,order,hevent,hge,hlt⟩ := h
  obtain ⟨hxstep,_⟩ := hpre.taken_step (x:=x) (by simp)
  obtain ⟨packets,hsent,hpackets⟩ := hack.packets hxstep
  obtain ⟨more,hmore⟩ := sent_of_run hpre (x:=x) (by simp)
  have hget : y.pre.sent[n]? = packets[n-x.pre.sent.length]? := by
    rw [← hmore,hsent,List.append_assoc,List.getElem?_append_right hge,List.getElem?_append_left]
    rw [hsent,List.length_append] at hlt
    omega
  rw [hevent] at hstep ⊢
  rcases step_cases hstep with ⟨_,he,_,_⟩ | ⟨i',up',input,_,hreact,_,_,_⟩
  · simp at he
  rw [writesAt,hreact]
  simp only [reaction,Option.bind_eq_some_iff] at hreact
  obtain ⟨p,hp,hif⟩ := hreact
  rw [hget] at hp
  obtain ⟨m,hm,rfl,rfl⟩ := hpackets p (List.mem_of_getElem? hp)
  by_cases haddr : p.nodeIp = (y.pre.leaf i).nodeIp ∧ p.nodePort = (y.pre.leaf i).nodePort
  · simp only [if_pos haddr,Option.some.injEq,Prod.mk.injEq] at hif
    obtain ⟨rfl,rfl,rfl⟩ := hif
    simp [hm,Input.writes]
  · simp [haddr] at hif

/-- An acknowledged pair is in the store of a new leader that handled its push and after that
wrote nothing else under the key. -/
theorem acknowledged_survives {ι : Type} [DecidableEq ι] {capacity : ℕ} (hc : 1 ≤ capacity)
    {c₀ s : Cluster ι} (h₀ : Fresh capacity c₀) {x y z : Taken (Cluster ι) (Event ι)}
    {after middle before : List (Taken (Cluster ι) (Event ι))}
    (hrun : Run step c₀ (z :: (after ++ y :: (middle ++ x :: before))) s)
    {ks : Finset Bytes} (hcard : ks.card < capacity)
    (hks : WritesOnly ks (z :: (after ++ y :: (middle ++ x :: before))))
    {i j : ι} {k v : Bytes} (hack : Acknowledged x j k v) (hhandles : HandlesFrom x y i)
    (hagree : ∀ w ∈ after, ∀ v', ⟨k,v'⟩ ∈ w.pre.writesAt w.event i → v' = v)
    (htakes : TakesOver z i) : s.stored i k = some v := by
  have hks' : WritesOnly ks (y :: (middle ++ x :: before)) := by
    intro k' v' hput
    apply hks k' v'
    obtain ⟨hk,hv,w,hw,haccepted⟩ := hput
    exact ⟨hk,hv,w,List.mem_cons_of_mem _ (List.mem_append_right _ hw),haccepted⟩
  have hbase : ∀ m, Run step c₀ (y :: (middle ++ x :: before)) m → m.stored i k = some v := by
    intro m hm
    have hwrites := hhandles.writesAt hack hm
    obtain ⟨rfl,hstep,hpre⟩ := hm.uncons
    rw [stored_step hc h₀ hcard.le hpre hstep hks',hwrites]
    simp
  have hsplit : z :: (after ++ y :: (middle ++ x :: before)) =
      (z::after) ++ y :: (middle ++ x :: before) := rfl
  rw [hsplit] at hrun hks
  refine stored_of_writes_agree hc h₀ hcard.le hrun hks hbase fun w hw v' hmem => ?_
  rcases List.mem_cons.mp hw with rfl | hw
  · obtain ⟨up,now,promotedAt,hevent⟩ := htakes.pass
    rw [hevent] at hmem
    simp [writesAt,reaction,Input.writes] at hmem
  · exact hagree w hw v' hmem

/-! ### Two runs of three nodes -/

def next (s : Cluster ι) (e : Event ι) : Cluster ι := (s.step e).getD s

theorem step_next {s : Cluster ι} {e : Event ι} (h : (s.step e).isSome = true) :
    s.step e = some (s.next e) := by
  obtain ⟨t,ht⟩ := Option.isSome_iff_exists.mp h
  simp [next,ht]

def taken (s : Cluster ι) (e : Event ι) : Taken (Cluster ι) (Event ι) := ⟨s,e,s.next e⟩

@[simp] theorem taken_post (s : Cluster ι) (e : Event ι) : (taken s e).post = s.next e := rfl

def putAtLeader (up : Reachability) : Event (Fin 3) := .input firstNode up (.put [0x6B] [0x76] 5)

def lateDetection : Event (Fin 3) := .input secondNode unreachable (.detect 20000 20000)

theorem acknowledged_putAtLeader {up : Reachability}
    (h : ((RestController.put up 5 [0x6B] [0x76] ((Cluster.launch trio).leaf 0)).map
      fun r => decide (r.2.2.status = 200)) = .ok true) :
    Acknowledged (taken (Cluster.launch trio) (putAtLeader up)) 0 [0x6B] [0x76] := by
  cases hr : RestController.put up 5 [0x6B] [0x76] ((Cluster.launch trio).leaf 0) with
  | error e => simp [hr,Except.map] at h
  | ok r =>
    simp only [hr,Except.map,Except.ok.injEq,decide_eq_true_eq] at h
    exact ⟨up,5,r,rfl,hr,h⟩

theorem writesOnly_putAtLeader (up : Reachability) {history : List (Taken (Cluster (Fin 3))
    (Event (Fin 3)))} (h : ∀ x ∈ history, x.event = putAtLeader up ∨
      ∀ i up' k v now, x.event ≠ .input i up' (.put k v now)) :
    WritesOnly {[0x6B]} history := by
  rintro k v ⟨_,_,x,hx,i,up',now,hevent,_⟩
  rcases h x hx with hput | hnot
  · rw [hput] at hevent
    simp only [putAtLeader,Event.input.injEq,Input.put.injEq] at hevent
    simp [← hevent.2.2.1]
  · exact absurd hevent (hnot i up' k v now)

/-- The connections are refused when the leader pushes the pair, which it acknowledges all
the same; then it dies. -/
theorem not_failover : ¬ ∀ (launch : Fin 3 → Launch) (leader : Fin 3) (capacity : ℕ),
    OneLeader launch leader → 1 ≤ capacity → Fresh capacity (Cluster.launch launch) →
    ∀ x z after before s, Run step (Cluster.launch launch) (z :: (after ++ x :: before)) s →
    (∃ ks : Finset Bytes, ks.card < capacity ∧ WritesOnly ks (z :: (after ++ x :: before))) →
    ∀ i j k v, Acknowledged x j k v → (∀ w ∈ after, ∀ j' v', ¬ Acknowledged w j' k v') →
    s.running j = false → TakesOver z i → s.stored i k = some v := by
  intro h
  let s₀ : Cluster (Fin 3) := Cluster.launch trio
  let s₁ := s₀.next (putAtLeader unreachable)
  let s₂ := s₁.next (.crash 0)
  have h₁ : s₀.step (putAtLeader unreachable) = some s₁ := step_next (by decide +kernel)
  have h₂ : s₁.step (.crash 0) = some s₂ := step_next (by decide +kernel)
  have h₃ : s₂.step lateDetection = some (s₂.next lateDetection) := step_next (by decide +kernel)
  have hrun : Run step s₀ [taken s₂ lateDetection,taken s₁ (.crash 0),
      taken s₀ (putAtLeader unreachable)] (s₂.next lateDetection) :=
    ((Run.nil.snoc h₁).snoc h₂).snoc h₃
  have hwrites : WritesOnly {[0x6B]} [taken s₂ lateDetection,taken s₁ (.crash 0),
      taken s₀ (putAtLeader unreachable)] :=
    writesOnly_putAtLeader unreachable (by simp [taken,lateDetection])
  have htakes : TakesOver (taken s₂ lateDetection) 1 :=
    ⟨⟨unreachable,20000,20000,rfl⟩,by decide +kernel,by decide +kernel⟩
  have hcrashed : ∀ w ∈ [taken s₁ (.crash 0)], ∀ j' v', ¬ Acknowledged w j' [0x6B] v' := by
    rintro w hw j' v' ⟨_,_,_,hevent,_⟩
    rw [List.mem_singleton.mp hw] at hevent
    cases hevent
  have hstored := h trio 0 100 trio_oneLeader (by decide) trio_fresh _ _ [_] [] _ hrun
    ⟨{[0x6B]},by decide,hwrites⟩ 1 0 [0x6B] [0x76] (acknowledged_putAtLeader (by decide +kernel))
    hcrashed (by decide +kernel) htakes
  exact absurd hstored (by decide +kernel)

/-- The second node handles the push before the leader dies. -/
theorem acknowledged_survives_trio : ∃ history s, Run step (Cluster.launch trio) history s ∧
    (s.leaf 1).leafRole = localLeader ∧ s.stored 1 [0x6B] = some [0x76] := by
  let s₀ : Cluster (Fin 3) := Cluster.launch trio
  let s₁ := s₀.next (putAtLeader reachable)
  let delivery : Event (Fin 3) := .deliver 1 reachable 0 ⟨6,6⟩ .stored
  let s₂ := s₁.next delivery
  have h₁ : s₀.step (putAtLeader reachable) = some s₁ := step_next (by decide +kernel)
  have h₂ : s₁.step delivery = some s₂ := step_next (by decide +kernel)
  have h₃ : s₂.step lateDetection = some (s₂.next lateDetection) := step_next (by decide +kernel)
  have hrun : Run step s₀ [taken s₂ lateDetection,taken s₁ delivery,
      taken s₀ (putAtLeader reachable)] (s₂.next lateDetection) :=
    ((Run.nil.snoc h₁).snoc h₂).snoc h₃
  have hwrites : WritesOnly {[0x6B]} [taken s₂ lateDetection,taken s₁ delivery,
      taken s₀ (putAtLeader reachable)] :=
    writesOnly_putAtLeader reachable (by simp [taken,lateDetection,delivery])
  have htakes : TakesOver (taken s₂ lateDetection) 1 :=
    ⟨⟨unreachable,20000,20000,rfl⟩,by decide +kernel,by decide +kernel⟩
  have hhandles : HandlesFrom (taken s₀ (putAtLeader reachable)) (taken s₁ delivery) 1 :=
    ⟨reachable,0,⟨6,6⟩,.stored,rfl,by decide +kernel,by decide +kernel⟩
  have hack : Acknowledged (taken s₀ (putAtLeader reachable)) 0 [0x6B] [0x76] :=
    acknowledged_putAtLeader (by decide +kernel)
  have hagree : ∀ w ∈ ([] : List (Taken (Cluster (Fin 3)) (Event (Fin 3)))), ∀ v',
      ⟨[0x6B],v'⟩ ∈ w.pre.writesAt w.event 1 → v' = [0x76] := by simp
  change Run step s₀ (_ :: ([] ++ _ :: ([] ++ _ :: []))) _ at hrun
  change WritesOnly _ (_ :: ([] ++ _ :: ([] ++ _ :: []))) at hwrites
  have hstored := acknowledged_survives (by decide) trio_fresh hrun (by decide) hwrites hack
    hhandles hagree htakes
  have hleads := htakes.after
  rw [taken_post] at hleads
  exact ⟨_,s₂.next lateDetection,hrun,hleads,hstored⟩

end Cluster
end Kivi
