import Kivi.Library.RecencyBatch
import Kivi.Cluster.Routing
import Kivi.Cluster.Provenance

/-! Synchronisation from end to end: a snapshot that a node takes in was asked for by this node,
and leaves it with everything the answering node held when it answered. -/
namespace Kivi

open Transition (Run Taken)
open RecencyCache (Assoc)
open KiviLeaf (Holds)

/-- The inputs on which a leaf asks its leader for data. -/
def Input.Pulls : Input → Prop
  | .boot _ => True
  | .pull => True
  | .message (.localSyncSelfPromotion _) _ _ => True
  | _ => False

namespace KiviLeaf

open PaxosNode (mem_sendAll mem_broadcastHeartBeat)

variable {up : Reachability} {input : Input} {s : KiviLeaf} {r : KiviLeaf × List Packet}

theorem answers_of_react (h : s.react up input = .ok r) {p : Packet} (hp : p ∈ r.2)
    {m : LocalSyncResponseMessage} (hm : p.msg = .localSyncResponse m) :
    ∃ req clock order, input = .message (.localSyncRequest req) clock order ∧
      m.leaderNodeId = s.nodeId ∧ m.followerNodeId = req.followerNodeId ∧
      m.payload = .loadFromMap clock.loadedAt (order.arrange s.kivi.getKvBatch) := by
  have hsends := (react_reaction h).sends p hp
  rw [hm] at hsends
  obtain ⟨hleader,req,clock,order,rfl,hpayload⟩ := hsends
  obtain ⟨n,_,hid,rfl⟩ := (answer_cases h).2 p hp
  simp only [Message.localSyncResponse.injEq] at hm
  exact ⟨req,clock,order,rfl,hleader,by rw [← hm,hid],hpayload⟩

theorem pulls_of_react (h : s.react up input = .ok r) {p : Packet} (hp : p ∈ r.2)
    {m : LocalSyncRequestMessage} (hm : p.msg = .localSyncRequest m) : input.Pulls := by
  cases input with
  | heartbeat now₁ now₂ unset =>
    obtain rfl := Except.ok.inj h
    rcases List.mem_append.mp hp with hp | hp
    · obtain ⟨n,_,_,rfl⟩ := mem_broadcastHeartBeat hp
      cases hm
    · obtain ⟨n,_,_,rfl⟩ := mem_broadcastHeartBeat hp
      cases hm
  | detect now promotedAt =>
    obtain rfl := Except.ok.inj h
    rcases detectFailures_spec up now promotedAt s with ⟨_,_,hr⟩ | ⟨_,hr⟩
    · rw [hr] at hp
      obtain ⟨n,_,rfl,_⟩ := mem_sendAll hp
      cases hm
    · rw [hr] at hp
      simp at hp
  | message msg clock order =>
    rcases handleMessage_cases h with ⟨ts,kivi,_,rfl⟩ | ⟨_,rfl | ⟨req,requester,rfl,rfl⟩ |
      ⟨res,rfl,rfl⟩ | ⟨m,rfl,rfl⟩⟩
    · simp at hp
    · simp at hp
    · obtain ⟨rfl,_⟩ := PaxosNode.mem_sendMessage hp
      cases hm
    · trivial
    · simp at hp
  | put key value now =>
    obtain ⟨⟨s',packets,response⟩,hput,hr⟩ := except_bind_eq_ok.mp h
    obtain rfl := Except.ok.inj hr
    rcases put_cases hput with ⟨_,_,rfl,_⟩ | ⟨_,kivi,_,_,rfl⟩
    · simp at hp
    · obtain ⟨n,_,rfl,_⟩ := mem_sendAll hp
      cases hm
  | get key =>
    obtain ⟨⟨s',response⟩,hget,hr⟩ := except_bind_eq_ok.mp h
    obtain rfl := Except.ok.inj hr
    simp at hp
  | boot unset => trivial
  | pull => trivial

theorem arrange_snapshot (nowMs : Int64) (order order' : HashOrder)
    (store : UnorderedMap Bytes Bytes) :
    (order'.arrange (LocalSyncPayload.loadFromMap nowMs (order.arrange store)).getPayload).entries.Perm
      store.entries := by
  have hload := LocalSyncPayload.getPayload_loadFromMap nowMs (order.arrange store)
  exact ((order'.perm _).trans (AList.toFinmap_eq.mp hload)).trans (order.perm store)

theorem snapshot_taken {l : Assoc Bytes Bytes} (hc : 1 ≤ s.kivi.engine.capacity)
    (hl : s.kivi.engine.Represents l) {m : LocalSyncResponseMessage} {nowMs : Int64}
    {clock : Clock} {order order' : HashOrder} {store : UnorderedMap Bytes Bytes}
    (hsize : RecencyCache.size store ≤ s.kivi.engine.capacity)
    (hm : m.payload = .loadFromMap nowMs (order'.arrange store))
    (hr : s.react up (.message (.localSyncResponse m) clock order) = .ok r) :
    (∀ k v, store.lookup k = some v → r.1.kivi.getKvBatch.lookup k = some v) ∧
      ∀ k v, r.1.kivi.getKvBatch.lookup k = some v → store.lookup k = some v ∨
        store.lookup k = none ∧ s.kivi.getKvBatch.lookup k = some v := by
  let taken := order.arrange m.payload.getPayload
  have hperm : taken.entries.Perm store.entries := by
    have hsnapshot := arrange_snapshot nowMs order' order store
    rwa [← hm] at hsnapshot
  have hlook : ∀ k, taken.lookup k = store.lookup k := fun k => AList.perm_lookup hperm
  have hroom : RecencyCache.size taken ≤ s.kivi.engine.capacity := hperm.length_eq.trans_le hsize
  have hafter : r.1.kivi.engine.Represents
      (RecencyCache.putAll s.kivi.engine.capacity taken.entries l) := (represents_of_react hc hl hr).2
  have hnew : ∀ k, r.1.kivi.getKvBatch.lookup k =
      (RecencyCache.putAll s.kivi.engine.capacity taken.entries l).lookup k := hafter.lookup
  have hold : ∀ k, s.kivi.getKvBatch.lookup k = l.lookup k := hl.lookup
  constructor
  · intro k v hk
    rw [hnew,RecencyCache.lookup_putAll_of_room hc hl.bounded hroom (by rw [hlook,hk])]
  · intro k v hk
    rw [hnew] at hk
    have hmem : k ∈ RecencyCache.putAll s.kivi.engine.capacity taken.entries l :=
      AList.lookup_isSome.mp (by simp [hk])
    rw [RecencyCache.lookup_putAll_of_mem taken l hmem] at hk
    by_cases hin : k ∈ taken
    · rw [if_pos hin,hlook] at hk
      exact .inl hk
    · rw [if_neg hin,← hold] at hk
      exact .inr ⟨by rw [← hlook,AList.lookup_eq_none.mpr hin],hk⟩

end KiviLeaf

namespace Cluster

variable {ι : Type} [DecidableEq ι] {launch : ι → Launch} {c₀ s : Cluster ι}
  {history : List (Taken (Cluster ι) (Event ι))}

def Reacts (y : Taken (Cluster ι) (Event ι)) (i : ι) (input : Input) (r : KiviLeaf × List Packet) :
    Prop :=
  ∃ up, y.pre.reaction y.event = some (i,up,input) ∧ (y.pre.leaf i).react up input = .ok r

def Delivers (x : Taken (Cluster ι) (Event ι)) (i : ι) (n : ℕ) (p : Packet) : Prop :=
  (∃ up clock order, x.event = .deliver i up n clock order) ∧ x.pre.sent[n]? = some p

def Sends (y : Taken (Cluster ι) (Event ι)) (n : ℕ) (p : Packet) : Prop :=
  y.pre.sent.length ≤ n ∧ y.post.sent[n]? = some p

theorem posted_of_run (h₀ : c₀.sent = []) (hrun : Run step c₀ history s) {n : ℕ} {p : Packet}
    (hp : s.sent[n]? = some p) :
    ∃ y ∈ history, Sends y n p ∧ ∃ i input r, Reacts y i input r ∧ p ∈ r.2 := by
  induction hrun with
  | nil => simp [h₀] at hp
  | @snoc history s e t _ hstep ih =>
    rcases step_cases hstep with ⟨i,_,_,rfl⟩ | ⟨i,up,input,r,hreact,_,hr,rfl⟩
    · exact List.exists_mem_cons_of_exists (ih hp)
    · by_cases hn : n < s.sent.length
      · rw [reacted_sent,List.getElem?_append_left hn] at hp
        exact List.exists_mem_cons_of_exists (ih hp)
      · have hle := Nat.le_of_not_lt hn
        refine ⟨_,List.mem_cons_self,⟨hle,hp⟩,i,input,r,⟨up,hreact,hr⟩,?_⟩
        rw [reacted_sent,List.getElem?_append_right hle] at hp
        exact List.mem_of_getElem? hp

omit [DecidableEq ι] in
theorem delivers_of_reaction {x : Taken (Cluster ι) (Event ι)} {i : ι} {up : Reachability}
    {msg : Message} {clock : Clock} {order : HashOrder}
    (h : x.pre.reaction x.event = some (i,up,.message msg clock order)) :
    ∃ n p, Delivers x i n p ∧ p.msg = msg := by
  obtain ⟨pre,e,post⟩ := x
  cases e with
  | crash j => simp [reaction] at h
  | input j up' input => exact absurd (reaction_cases h) (by
      rintro (⟨he,hnot⟩ | ⟨_,_,_,_,he,_⟩)
      · exact hnot _ _ _ rfl
      · cases he)
  | deliver j up' n clock' order' =>
    obtain ⟨p,hp,hi⟩ := Option.bind_eq_some_iff.mp h
    split at hi
    · obtain ⟨rfl,_,hmsg,_⟩ := by simpa using hi
      exact ⟨n,p,⟨⟨_,_,_,rfl⟩,hp⟩,hmsg⟩
    · cases hi

def Asks (y : Taken (Cluster ι) (Event ι)) (i : ι) (n : ℕ) : Prop :=
  ∃ input r, Reacts y i input r ∧ input.Pulls ∧ ∃ p ∈ r.2, Sends y n p ∧
    ∃ req, p.msg = .localSyncRequest req

/-- In this step node `j` is handed the `l`-th packet, a request, and answers it by the `n`-th
packet with all its store holds. -/
def Answers (y : Taken (Cluster ι) (Event ι)) (j : ι) (l n : ℕ) (m : LocalSyncResponseMessage) :
    Prop :=
  m.leaderNodeId = (y.pre.leaf j).nodeId ∧ ∃ req clock order r,
    Reacts y j (.message (.localSyncRequest req) clock order) r ∧
      (∃ q, Delivers y j l q ∧ q.msg = .localSyncRequest req) ∧
      (∃ p ∈ r.2, Sends y n p ∧ p.msg = .localSyncResponse m) ∧
      m.followerNodeId = req.followerNodeId ∧
      m.payload = .loadFromMap clock.loadedAt (order.arrange (y.pre.leaf j).kivi.getKvBatch)

/-- An answer under way was sent by a node that handled a request. -/
theorem answered_of_run (h₀ : c₀.sent = []) (hrun : Run step c₀ history s) {n : ℕ} {p : Packet}
    (hp : s.sent[n]? = some p) {m : LocalSyncResponseMessage} (hm : p.msg = .localSyncResponse m) :
    ∃ y ∈ history, ∃ j l, Answers y j l n m := by
  obtain ⟨y,hy,hsends,j,input,r,⟨up,hreact,hr⟩,hpr⟩ := posted_of_run h₀ hrun hp
  obtain ⟨req,clock,order,rfl,hleader,hfollower,hpayload⟩ := KiviLeaf.answers_of_react hr hpr hm
  obtain ⟨l,q,hdelivers,hq⟩ := delivers_of_reaction hreact
  exact ⟨y,hy,j,l,hleader,req,clock,order,r,⟨up,hreact,hr⟩,⟨q,hdelivers,hq⟩,⟨p,hpr,hsends,hm⟩,
    hfollower,hpayload⟩

theorem asked_of_run (hbook : AddressBook launch)
    (hrun : Run step (Cluster.launch launch) history s) {n : ℕ} {p : Packet}
    (hp : s.sent[n]? = some p) {m : LocalSyncRequestMessage} (hm : p.msg = .localSyncRequest m) :
    ∃ z ∈ history, ∃ i, Asks z i n ∧ m.followerNodeId = (launch i).nodeId := by
  obtain ⟨z,hz,hsends,i,input,r,⟨up,hreact,hr⟩,hpr⟩ := posted_of_run rfl hrun hp
  obtain ⟨_,before,hbefore,_⟩ := hrun.taken_step hz
  have hposts := KiviLeaf.react_posts hr p hpr
  rw [KiviLeaf.Posts,hm] at hposts
  have hpulls := KiviLeaf.pulls_of_react hr hpr hm
  exact ⟨z,hz,i,⟨input,r,⟨up,hreact,hr⟩,hpulls,p,hpr,hsends,m,hm⟩,
    hposts.trans ((charted_of_run hbook hbefore).leaves i).nodeId⟩

/-- Taking an answer in leaves the node with all the answering node held when it answered, and
otherwise only with what it held itself. -/
theorem Answers.taken (h₀ : Fresh 100 c₀) {before : List (Taken (Cluster ι) (Event ι))}
    {x y : Taken (Cluster ι) (Event ι)} (hrun : Run step c₀ (x :: before) s) (hy : y ∈ before)
    {i j : ι} {l n : ℕ} {m : LocalSyncResponseMessage} (h : Answers y j l n m) {clock : Clock}
    {order : HashOrder} {r : KiviLeaf × List Packet}
    (hx : Reacts x i (.message (.localSyncResponse m) clock order) r) :
    (∀ k v, (y.pre.leaf j).kivi.getKvBatch.lookup k = some v →
      r.1.kivi.getKvBatch.lookup k = some v) ∧
    ∀ k v, r.1.kivi.getKvBatch.lookup k = some v →
      (y.pre.leaf j).kivi.getKvBatch.lookup k = some v ∨
        (y.pre.leaf j).kivi.getKvBatch.lookup k = none ∧
          (x.pre.leaf i).kivi.getKvBatch.lookup k = some v := by
  obtain ⟨_,req,clock',order',_,_,_,_,_,hpayload⟩ := h
  obtain ⟨up,_,hr⟩ := hx
  have hbefore := hrun.uncons.2.2
  obtain ⟨_,earlier,hearlier,_⟩ := hbefore.taken_step hy
  obtain ⟨l,hl,_⟩ := sourced_of_run (by decide) h₀ hbefore
  obtain ⟨l',hl',_⟩ := sourced_of_run (by decide) h₀ hearlier
  obtain ⟨hcap,hrep⟩ := hl i
  obtain ⟨hcap',hrep'⟩ := hl' j
  have hsize : RecencyCache.size (y.pre.leaf j).kivi.getKvBatch ≤
      (x.pre.leaf i).kivi.engine.capacity := by
    have hbound := hrep'.bounded
    rw [hcap,← hcap']
    exact hrep'.size_store.trans_le hbound
  exact KiviLeaf.snapshot_taken (by rw [hcap]; decide) hrep hsize hpayload hr

/-- Every answer a node takes in closes a round trip that this node has opened: first it asked,
then this request had some node answer with its whole store, and now that this answer is taken in
it holds all of this store, its other pairs being its own old ones. -/
theorem round_trip {ι : Type} [DecidableEq ι] {launch : ι → Launch} (hbook : AddressBook launch)
    {history : List (Taken (Cluster ι) (Event ι))} {s : Cluster ι}
    (hrun : Run step (Cluster.launch launch) history s) {x : Taken (Cluster ι) (Event ι)}
    (hx : x ∈ history) {i : ι} {n : ℕ} {p : Packet} {m : LocalSyncResponseMessage}
    (hdelivers : Delivers x i n p) (hm : p.msg = .localSyncResponse m) :
    ∃ before between y z j l, x :: before <:+ history ∧ y :: between <:+ before ∧ z ∈ between ∧
      Asks z i l ∧ Answers y j l n m ∧ m.followerNodeId = (launch i).nodeId ∧
      (∀ k v, (y.pre.leaf j).kivi.getKvBatch.lookup k = some v →
        (x.post.leaf i).kivi.getKvBatch.lookup k = some v) ∧
      ∀ k v, (x.post.leaf i).kivi.getKvBatch.lookup k = some v →
        (y.pre.leaf j).kivi.getKvBatch.lookup k = some v ∨
          (y.pre.leaf j).kivi.getKvBatch.lookup k = none ∧
            (x.pre.leaf i).kivi.getKvBatch.lookup k = some v := by
  obtain ⟨hstep,before,hbefore,hsuffix⟩ := hrun.taken_step hx
  obtain ⟨⟨up,clock,order,hevent⟩,hp⟩ := hdelivers
  have hdeliver := hstep
  rw [hevent] at hdeliver
  obtain ⟨p',hp',hreact⟩ := deliver_reaction hdeliver
  obtain rfl : p = p' := Option.some.inj (hp.symm.trans hp')
  rw [hm,← hevent] at hreact
  have hmeant := (charted_of_run hbook hbefore).handled hreact
  obtain ⟨y,hy,j,l,hanswers⟩ := answered_of_run rfl hbefore hp hm
  obtain ⟨hystep,between,hbetween,hysuffix⟩ := hbefore.taken_step hy
  have hparts := hanswers
  obtain ⟨_,req,_,_,_,_,⟨q,hq,hqm⟩,_,hfollower,_⟩ := hparts
  obtain ⟨z,hz,k,hasks,hk⟩ := asked_of_run hbook hbetween hq.2 hqm
  obtain rfl : k = i := hbook.ids (hk.symm.trans (hfollower.symm.trans hmeant.1))
  rcases step_cases hstep with ⟨_,hcrash,_⟩ | ⟨k',up',input,r,hreact',_,hr,hpost⟩
  · rw [hcrash] at hevent
    cases hevent
  obtain ⟨rfl,rfl,rfl⟩ : k' = k ∧ up' = up ∧ input = _ := by
    simpa using hreact'.symm.trans hreact
  have hfresh : Fresh 100 (Cluster.launch launch) := ⟨fun _ => rfl,rfl⟩
  have htaken := hanswers.taken hfresh (hbefore.snoc hstep) hy ⟨up',hreact,hr⟩
  refine ⟨before,between,y,z,j,l,hsuffix,hysuffix,hz,hasks,hanswers,hmeant.1,?_⟩
  rw [hpost,reacted_self]
  exact htaken

/-- The second node boots, and the leader holds one pair. -/
theorem round_trip_trio : ∃ history s, Run step (Cluster.launch trio) history s ∧
    ∃ x ∈ history, ∃ y ∈ history, ∃ j l n m, Answers y j l n m ∧
      ∀ k v, (y.pre.leaf j).kivi.getKvBatch.lookup k = some v →
        (x.post.leaf secondNode).kivi.getKvBatch.lookup k = some v := by
  have hend : ((Transition.exec step (Cluster.launch trio)
      [.input firstNode unreachable (.put [0x6B] [0x76] 5),
        .input secondNode reachable (.boot 0),
        .deliver firstNode reachable 0 ⟨6,6⟩ .stored]).any fun s =>
          (s.step (.deliver secondNode reachable 1 ⟨7,7⟩ .stored)).any fun _ =>
            decide (s.kindAt 1 = some .localSyncResponse)) = true := by
    decide +kernel
  obtain ⟨history,s,x,msg,hrun,hx,hreact,hkind⟩ := delivered_of_exec hend
  obtain ⟨n,p,hdelivers,hmsg⟩ := delivers_of_reaction hreact
  cases msg with
  | localSyncResponse m =>
    obtain ⟨before,between,y,_,j,l,hxs,hys,_,_,hanswers,_,hall,_⟩ :=
      round_trip trio_addressBook hrun hx hdelivers hmsg
    have hy : y ∈ before := hys.subset List.mem_cons_self
    exact ⟨history,s,hrun,x,hx,y,hxs.subset (List.mem_cons_of_mem _ hy),j,l,n,m,hanswers,hall⟩
  | _ => cases hkind

end Cluster
end Kivi
