import Kivi.Cluster.Stability

/-! The cluster when processes that have ended are started again from their command lines. -/
namespace Kivi

open Transition (Run Taken)
open RecencyCache (Assoc)
open RestController (acceptsPut)
open KiviLeaf (Holds)

def Launch.again (now : Int64) (a : Launch) : Launch := { a with registeredAt := now }

/-- An event of the cluster, or a new process in the place of one that has ended. -/
inductive Life (ι : Type)
  | event (e : Event ι)
  | restart (i : ι) (now : Int64)

namespace Cluster

variable {ι : Type} [DecidableEq ι] {launch : ι → Launch} {leader : ι} {s t : Cluster ι}
  {history : List (Taken (Cluster ι) (Life ι))}

def restarted (launch : ι → Launch) (i : ι) (now : Int64) (s : Cluster ι) : Cluster ι :=
  { s with
    leaf := Function.update s.leaf i ((launch i).again now).leaf
    running := Function.update s.running i true }

def lifeStep (launch : ι → Launch) (s : Cluster ι) : Life ι → Option (Cluster ι)
  | .event e => s.step e
  | .restart i now => if s.running i then none else some (s.restarted launch i now)

def events : List (Taken (Cluster ι) (Life ι)) → List (Taken (Cluster ι) (Event ι))
  | [] => []
  | x::history =>
    match x.event with
    | .event e => ⟨x.pre,e,x.post⟩ :: events history
    | .restart _ _ => events history

/-- The events since the process of node `i` was started. -/
def lifetime (i : ι) : List (Taken (Cluster ι) (Life ι)) → List (Taken (Cluster ι) (Event ι))
  | [] => []
  | x::history =>
    match x.event with
    | .event e => ⟨x.pre,e,x.post⟩ :: lifetime i history
    | .restart j _ => if j = i then [] else lifetime i history

theorem lifeStep_cases {e : Life ι} (h : lifeStep launch s e = some t) :
    (∃ e', e = .event e' ∧ s.step e' = some t) ∨
      ∃ i now, e = .restart i now ∧ t = s.restarted launch i now := by
  cases e with
  | event e' => exact .inl ⟨e',rfl,h⟩
  | restart i now =>
    obtain ⟨_,ht⟩ := Option.ite_none_left_eq_some.mp h
    exact .inr ⟨i,now,rfl,(Option.some.inj ht).symm⟩

@[simp] theorem restarted_self (i : ι) (now : Int64) (s : Cluster ι) :
    (s.restarted launch i now).leaf i = ((launch i).again now).leaf := by simp [restarted]

theorem restarted_ne {i j : ι} (h : j ≠ i) (now : Int64) (s : Cluster ι) :
    (s.restarted launch i now).leaf j = s.leaf j := by simp [restarted,h]

/-- What holds of a leaf as launched, at any time, holds of all leaves after a restart. -/
theorem restarted_leaf {P : ι → KiviLeaf → Prop} {i : ι} {now : Int64}
    (hnew : P i ((launch i).again now).leaf) (h : ∀ j, P j (s.leaf j)) (j : ι) :
    P j ((s.restarted launch i now).leaf j) := by
  by_cases hj : j = i
  · subst j
    rw [restarted_self]
    exact hnew
  · rw [restarted_ne hj]
    exact h j

/-! ### Data -/

theorem sourced_step {l : ι → Assoc Bytes Bytes} {earlier : List (Taken (Cluster ι) (Event ι))}
    (hl : Holds 100 s.leaf l) (h : Sourced earlier s l) {e : Event ι} (hs : s.step e = some t) :
    ∃ l', Holds 100 t.leaf l' ∧ Sourced (⟨s,e,t⟩ :: earlier) t l' := by
  rcases step_cases hs with ⟨i,_,_,rfl⟩ | ⟨i,up,input,r,hreact,_,hr,rfl⟩
  · exact ⟨l,hl,⟨fun j k v hk => (h.stored j k v hk).cons,
      fun p hp k v hk => (h.sent p hp k v hk).cons⟩⟩
  · exact ⟨_,hl.react (by decide) hr,h.reacted hl hreact hr⟩

theorem sourced_restarted {l : ι → Assoc Bytes Bytes}
    {earlier : List (Taken (Cluster ι) (Event ι))} (hl : Holds 100 s.leaf l)
    (h : Sourced earlier s l) (i : ι) (now : Int64) :
    Holds 100 (s.restarted launch i now).leaf (Function.update l i ∅) ∧
      Sourced earlier (s.restarted launch i now) (Function.update l i ∅) := by
  refine ⟨fun j => ?_,fun j k v hk => ?_,h.sent⟩
  · by_cases hj : j = i
    · subst j
      rw [restarted_self,Function.update_self]
      exact ⟨rfl,LRUStore.represents_new 100⟩
    · rw [restarted_ne hj,Function.update_of_ne hj]
      exact hl j
  · by_cases hj : j = i
    · subst j
      rw [Function.update_self] at hk
      cases hk
    · rw [Function.update_of_ne hj] at hk
      exact h.stored j k v hk

/-- Whichever processes end and are started again, every pair in a store was put by a client at
a node that took itself for the leader, before or after the restarts. -/
theorem stored_accepted_restarting {ι : Type} [DecidableEq ι] {launch : ι → Launch}
    {history : List (Taken (Cluster ι) (Life ι))} {s : Cluster ι}
    (hrun : Run (lifeStep launch) (Cluster.launch launch) history s) (i : ι) {k v : Bytes}
    (hk : (s.leaf i).kivi.getKvBatch.lookup k = some v) : AcceptedPut (events history) k v := by
  have hsourced : ∃ l, Holds 100 s.leaf l ∧ Sourced (events history) s l := by
    apply hrun.history_invariant
      (I:=fun history s => ∃ l, Holds 100 s.leaf l ∧ Sourced (events history) s l)
    · exact ⟨_,KiviLeaf.holds_new fun _ => rfl,⟨by simp,by simp [Cluster.launch]⟩⟩
    · rintro history s e t _ ⟨l,hl,h⟩ hstep
      rcases lifeStep_cases hstep with ⟨e',rfl,hs⟩ | ⟨j,now,rfl,rfl⟩
      · exact sourced_step hl h hs
      · exact ⟨_,sourced_restarted hl h j now⟩
  obtain ⟨l,hl,h⟩ := hsourced
  rw [hl.lookup] at hk
  exact h.stored i k v hk

/-! ### The leader -/

theorem put_of_served {k v : Bytes} {earlier : List (Taken (Cluster ι) (Event ι))}
    (h : (served leader earlier).lookup k = some v) :
    ∃ x ∈ earlier, ∃ up now, x.event = .input leader up (.put k v now) := by
  induction earlier with
  | nil => cases h
  | cons x earlier ih =>
    have hold : (served leader earlier).lookup k = some v →
        ∃ y ∈ x::earlier, ∃ up now, y.event = .input leader up (.put k v now) := fun hk =>
      List.exists_mem_cons_of_exists (ih hk)
    unfold served at h
    split at h
    · rename_i i up key value now hx
      split at h
      · rename_i hput
        obtain ⟨rfl,_⟩ := hput
        rcases RecencyCache.lookup_putAll [⟨key,value⟩] h with hp | hk
        · obtain ⟨rfl,hv⟩ := Sigma.mk.inj (List.mem_singleton.mp hp)
          obtain rfl := eq_of_heq hv
          exact ⟨x,List.mem_cons_self,up,now,hx⟩
        · exact hold hk
      · exact hold h
    · split at h
      · rename_i key _ _
        exact hold ((RecencyCache.lookup_get key k _).symm.trans h)
      · exact hold h
    · exact hold h

omit [DecidableEq ι] in
theorem charts_again (hbook : AddressBook launch) (i : ι) (now : Int64) :
    Charts launch i ((launch i).again now).leaf := by
  have hagain : AddressBook fun j => (launch j).again now :=
    ⟨hbook.ids,hbook.addresses,hbook.listed⟩
  have h := charts_launch hagain i
  exact ⟨h.nodeId,h.nodeIp,h.nodePort,h.tables⟩

omit [DecidableEq ι] in
theorem lists_again (hbook : FullBook launch) (i k : ι) (now : Int64) :
    ((launch i).again now).leaf.Lists (launch k).nodeId := by
  have hagain : FullBook fun j => (launch j).again now :=
    ⟨⟨hbook.ids,hbook.addresses,hbook.listed⟩,hbook.complete⟩
  exact lists_launch hagain i k

theorem lasting_again (h : OneLeader launch leader) (i : ι) (now : Int64) :
    ((launch i).again now).leaf.Lasting (launch i) := by
  have hlast : ((launch i).again now).leaf.Lasting ((launch i).again now) :=
    KiviLeaf.lasting_launch (by
      change ((launch i).cluster.map PaxosNodeSharableDescriptor.nodeId).Nodup
      rw [h.cluster]
      exact h.listedOnce)
  exact ⟨hlast.nodeId,hlast.watched,hlast.listedOnce⟩

/-- What holds while the leader is not given up, over restarts too. -/
structure Enduring (launch : ι → Launch) (leader : ι) (history : List (Taken (Cluster ι) (Life ι)))
    (s : Cluster ι) : Prop where
  settled : Settled launch leader s
  lasting : ∀ i, (s.leaf i).Lasting (launch i)
  serves : Serves launch leader (lifetime leader history) s

theorem Enduring.event (h : OneLeader launch leader) (hbook : FullBook launch)
    (hs : Enduring launch leader history s) {e : Event ι} (hkeeps : KeepsLeader ⟨s,e,t⟩)
    (hnopull : NoPull leader ⟨s,e,t⟩) (hstep : s.step e = some t) :
    Enduring launch leader (⟨s,.event e,t⟩ :: history) t where
  settled := ⟨hs.settled.steady.step hkeeps hstep,hs.settled.charted.step hbook.toAddressBook hstep,
    lists_step hs.settled.listed hstep⟩
  lasting := fun i => leaf_step (fun _ _ _ _ hP hr => hP.react hr) hstep i (hs.lasting i)
  serves := hs.serves.step h hs.settled hs.lasting hnopull hstep

theorem Enduring.restart (h : OneLeader launch leader) (hbook : FullBook launch)
    (hs : Enduring launch leader history s) (i : ι) (now : Int64) :
    Enduring launch leader (⟨s,.restart i now,s.restarted launch i now⟩ :: history)
      (s.restarted launch i now) where
  settled := by
    refine ⟨⟨?_,?_,hs.settled.steady.quiet⟩,⟨?_,hs.settled.charted.sent⟩,?_⟩
    · exact restarted_leaf (P:=fun j a => a.leafRole = (launch j).leafRole) rfl
        hs.settled.steady.role
    · exact restarted_leaf (P:=fun j a => a.currentLeaderId = (launch j).leaderId) rfl
        hs.settled.steady.leaderId
    · exact restarted_leaf (charts_again hbook.toAddressBook i now) hs.settled.charted.leaves
    · by_cases hi : leader = i
      · subst i
        rw [restarted_self]
        exact lists_again hbook leader leader now
      · rw [restarted_ne hi]
        exact hs.settled.listed
  lasting := restarted_leaf (P:=fun j a => a.Lasting (launch j)) (lasting_again h i now) hs.lasting
  serves := by
    have hclosed : Private launch leader (s.restarted launch i now) :=
      ⟨hs.serves.closed.pushes,hs.serves.closed.requests,hs.serves.closed.responses⟩
    rw [lifetime]
    by_cases hi : i = leader
    · subst i
      simp only [if_true]
      exact ⟨hclosed,by rw [restarted_self]; rfl,by
        rw [restarted_self]
        exact LRUStore.represents_new 100⟩
    · simp only [if_neg hi]
      refine ⟨hclosed,?_,?_⟩
      · rw [restarted_ne (Ne.symm hi)]
        exact hs.serves.capacity
      · rw [restarted_ne (Ne.symm hi)]
        exact hs.serves.store

theorem enduring_of_run (h : OneLeader launch leader) (hbook : FullBook launch)
    (hrun : Run (lifeStep launch) (Cluster.launch launch) history s)
    (hkeeps : ∀ x ∈ events history, KeepsLeader x ∧ NoPull leader x) :
    Enduring launch leader history s := by
  induction hrun with
  | nil =>
    refine ⟨⟨steady_of_run .nil (List.forall_mem_nil _),charted_of_run hbook.toAddressBook .nil,
      lists_launch hbook leader leader⟩,lasting_of_run h .nil,?_⟩
    exact serves_of_run h hbook .nil (List.forall_mem_nil _) (List.forall_mem_nil _)
  | @snoc history s e t hrun hstep ih =>
    rcases lifeStep_cases hstep with ⟨e',rfl,hs⟩ | ⟨i,now,rfl,rfl⟩
    · have hall := List.forall_mem_cons.mp hkeeps
      exact (ih hall.2).event h hbook hall.1.1 hall.1.2 hs
    · exact (ih hkeeps).restart h hbook i now

/-- As long as no pass marks the leader dead, however often it and the others end and are started
again, the leader alone takes writes, and its store is the cache its clients have made since its
own last start: a key that nobody has put there since is not found, whatever the other nodes
still hold. -/
theorem restart_forgets {ι : Type} [DecidableEq ι] {launch : ι → Launch} {leader : ι}
    (h : OneLeader launch leader) (hbook : FullBook launch)
    {history : List (Taken (Cluster ι) (Life ι))} {s : Cluster ι}
    (hrun : Run (lifeStep launch) (Cluster.launch launch) history s)
    (hkeeps : ∀ x ∈ events history, KeepsLeader x ∧ NoPull leader x) :
    (∀ i, acceptsPut (s.leaf i) = true ↔ i = leader) ∧
      (∀ k, (s.leaf leader).kivi.getKvBatch.lookup k =
        (served leader (lifetime leader history)).lookup k) ∧
      ∀ k, (∀ x ∈ lifetime leader history, ∀ up v now,
          x.event ≠ .input leader up (.put k v now)) →
        ∃ s', RestController.get (some k) (s.leaf leader) =
          .ok (s',.ofError 404 "Key not found") := by
  have hs := enduring_of_run h hbook hrun hkeeps
  refine ⟨hs.settled.steady.acceptsPut_iff h hs.lasting,hs.serves.store.lookup,fun k hnot => ?_⟩
  have hnone : (served leader (lifetime leader history)).lookup k = none := by
    rw [Option.eq_none_iff_forall_ne_some]
    intro v hv
    obtain ⟨x,hx,up,now,hput⟩ := put_of_served hv
    exact hnot x hx up v now hput
  obtain ⟨engine,hget,_⟩ := LRUStore.get_spec hs.serves.store k
  rw [RecencyCache.get_answer,hnone] at hget
  have hkivi : (s.leaf leader).kivi.get k = .ok (⟨engine⟩,none) := by
    simp only [KiviTree.get,hget,except_bind_ok,except_pure]
  exact ⟨_,by simp only [RestController.get,hkivi,except_bind_ok]; rfl⟩

/-! ### A leader that comes back -/

omit [DecidableEq ι] in
theorem mem_events {x : Taken (Cluster ι) (Event ι)} (h : x ∈ events history) :
    ∃ y ∈ history, y.event = .event x.event := by
  induction history with
  | nil => simp [events] at h
  | cons y history ih =>
    unfold events at h
    split at h
    · rename_i e he
      rcases List.mem_cons.mp h with rfl | h
      · exact ⟨y,List.mem_cons_self,he⟩
      · exact List.exists_mem_cons_of_exists (ih h)
    · exact List.exists_mem_cons_of_exists (ih h)

def comeback : List (Life (Fin 3)) :=
  [.event (.input firstNode reachable (.put [0x6B] [0x76] 5)),
    .event (.deliver secondNode reachable 0 ⟨6,6⟩ .stored),.event (.crash firstNode),
    .restart firstNode 7]

theorem comeback_run : ∃ history s, Run (lifeStep trio) (Cluster.launch trio) history s ∧
    history.map Taken.event = comeback.reverse ∧
    (s.leaf secondNode).kivi.getKvBatch.lookup [0x6B] = some [0x76] := by
  have hend : ((Transition.exec (lifeStep trio) (Cluster.launch trio) comeback).any fun s =>
      decide ((s.leaf secondNode).kivi.getKvBatch.lookup [0x6B] = some [0x76])) = true := by
    decide +kernel
  obtain ⟨history,s,hrun,hevents,hs⟩ := Run.of_exec_any _ hend
  exact ⟨history,s,hrun,hevents,of_decide_eq_true hs⟩

theorem stored_accepted_restarting_trio : ∃ history, history.map Taken.event = comeback.reverse ∧
    AcceptedPut (events history) [0x6B] [0x76] := by
  obtain ⟨history,s,hrun,hevents,hk⟩ := comeback_run
  exact ⟨history,hevents,stored_accepted_restarting hrun secondNode hk⟩

/-- The second node has the pair, the leader has lost it. -/
theorem restart_forgets_trio : ∃ s : Cluster (Fin 3), acceptsPut (s.leaf firstNode) = true ∧
    (s.leaf secondNode).kivi.getKvBatch.lookup [0x6B] = some [0x76] ∧
    ∃ s', RestController.get (some [0x6B]) (s.leaf firstNode) =
      .ok (s',.ofError 404 "Key not found") := by
  obtain ⟨history,s,hrun,hevents,hk⟩ := comeback_run
  have hkeeps : ∀ x ∈ events history, KeepsLeader x ∧ NoPull firstNode x := by
    intro x hx
    obtain ⟨y,hy,he⟩ := mem_events hx
    have hmem := Run.event_mem hevents hy
    rw [he] at hmem
    simp only [comeback,List.mem_cons,Life.event.injEq,reduceCtorEq,List.not_mem_nil,
      or_false] at hmem
    rcases hmem with he | he | he
    · exact ⟨fun i up now p hpass => absurd (he.symm.trans hpass) (by simp),
        fun up hpull => absurd (he.symm.trans hpull) (by simp)⟩
    · exact ⟨fun i up now p hpass => absurd (he.symm.trans hpass) (by simp),
        fun up hpull => absurd (he.symm.trans hpull) (by simp)⟩
    · exact ⟨fun i up now p hpass => absurd (he.symm.trans hpass) (by simp),
        fun up hpull => absurd (he.symm.trans hpull) (by simp)⟩
  have hafter : lifetime firstNode history = [] := by
    cases history with
    | nil => cases hevents
    | cons x history =>
      have hx := (List.cons.inj hevents).1
      simp only [lifetime,hx,if_true]
  obtain ⟨haccepts,_,hforgotten⟩ := restart_forgets trio_oneLeader trio_fullBook hrun hkeeps
  refine ⟨s,(haccepts firstNode).mpr rfl,hk,hforgotten [0x6B] fun x hx => ?_⟩
  have hx' : x ∈ lifetime firstNode history := hx
  rw [hafter] at hx'
  cases hx'

end Cluster
end Kivi
