import Kivi.Leaf.Writes
import Kivi.Cluster.Replication

/-! One follower of a leader that stays. Its messages reach the follower in any order, and
the values put under one key are numbered, as its versions, in the order of the puts. -/
namespace Kivi

open Transition (Run Taken)
open RecencyCache (Assoc assign Within)

/-- The leader, the follower, the values the leader has accepted under the key, the messages
it has sent to the follower, each with the number of versions there were, and those that the
follower has handled, the latest one first. -/
structure Observed where
  leader : KiviLeaf
  follower : KiviLeaf
  values : List Bytes
  outbox : List (ℕ × Message)
  handled : List (ℕ × Message)

namespace Observed

/-- The leader takes an input, or the follower handles the `n`-th message of the outbox. -/
inductive Event
  | lead (up : Reachability) (input : Input)
  | handle (n : ℕ) (clock : Clock) (order : HashOrder)

def start (leader follower : KiviLeaf) : Observed := ⟨leader,follower,[],[],[]⟩

def newValues (key : Bytes) (input : Input) (s : KiviLeaf) : List Bytes :=
  ((input.writes s).filter fun e => decide (e.1 = key)).map fun e => e.2

def led (key : Bytes) (input : Input) (r : KiviLeaf × List Packet) (s : Observed) : Observed :=
  let values := s.values ++ newValues key input s.leader
  { s with
    leader := r.1
    values
    outbox := s.outbox ++ (addressed s.follower.toPaxosNode r.2).map fun msg => (values.length,msg) }

def received (m : ℕ × Message) (r : KiviLeaf × List Packet) (s : Observed) : Observed :=
  { s with follower := r.1, handled := m :: s.handled }

def fromPeer : Input → Bool
  | .message msg _ _ => msg.stamp.isSome
  | _ => false

def step (key : Bytes) (s : Observed) : Event → Option Observed
  | .lead up input =>
    if fromPeer input then none
    else match s.leader.react up input with
    | .ok r => some (s.led key input r)
    | .error _ => none
  | .handle n clock order => (s.outbox[n]?).bind fun m =>
    match s.follower.react Cluster.unreachable (.message m.2 clock order) with
    | .ok r => some (s.received m r)
    | .error _ => none

/-- The versions of the messages handled that carry the key, the latest one first. -/
def versions (key : Bytes) (s : Observed) : List ℕ :=
  (s.handled.filter fun m => m.2.carries key).map Prod.fst

def held (key : Bytes) (s : Observed) : Option ℕ := (s.versions key).head?

def value (s : Observed) (n : ℕ) : Option Bytes := if n = 0 then none else s.values[n-1]?

def stamps (s : Observed) : List Int64 := s.handled.filterMap fun m => m.2.stamp

theorem step_cases {key : Bytes} {s t : Observed} {e : Event} (h : s.step key e = some t) :
    (∃ up input r, e = .lead up input ∧ fromPeer input = false ∧
      s.leader.react up input = .ok r ∧ t = s.led key input r) ∨
    ∃ n clock order m r, e = .handle n clock order ∧ s.outbox[n]? = some m ∧
      s.follower.react Cluster.unreachable (.message m.2 clock order) = .ok r ∧
      t = s.received m r := by
  cases e with
  | lead up input =>
    left
    simp only [step] at h
    split at h
    · simp at h
    · rename_i hpeer
      split at h
      · rename_i r hr
        exact ⟨up,input,r,rfl,by simpa using hpeer,hr,(Option.some.inj h).symm⟩
      · simp at h
  | handle n clock order =>
    right
    simp only [step,Option.bind_eq_some_iff] at h
    obtain ⟨m,hm,h⟩ := h
    split at h
    · rename_i r hr
      exact ⟨n,clock,order,m,r,rfl,hm,hr,(Option.some.inj h).symm⟩
    · simp at h

/-! ### The invariant -/

variable {key : Bytes} {capacity : ℕ} {ks : Finset Bytes} {s t : Observed} {e : Event}
  {l f : Assoc Bytes Bytes}

/-- The two stores are maps, that of the leader holds the newest version and that of the
follower the one it was sent last. -/
structure Tracks (key : Bytes) (capacity : ℕ) (ks : Finset Bytes) (s : Observed)
    (l f : Assoc Bytes Bytes) : Prop where
  leader : s.leader.kivi.engine.capacity = capacity ∧ s.leader.kivi.engine.Represents l
  follower : s.follower.kivi.engine.capacity = capacity ∧ s.follower.kivi.engine.Represents f
  leaderKeys : Within ks l
  followerKeys : Within ks f
  outboxKeys : ∀ m ∈ s.outbox, ∀ k v, m.2.Carries k v → k ∈ ks
  newest : l.lookup key = s.values.getLast?
  outbox : ∀ m ∈ s.outbox, ∀ v, m.2.Carries key v → s.value m.1 = some v
  known : ∀ n ∈ s.versions key, (s.value n).isSome
  current : f.lookup key = (s.held key).bind s.value
  synced : ∀ ts ∈ s.stamps.head?, s.follower.lastSyncTime = ts

theorem tracks_start {leader follower : KiviLeaf} (hl : leader.kivi = .new capacity)
    (hf : follower.kivi = .new capacity) : Tracks key capacity ks (start leader follower) ∅ ∅ where
  leader := by
    rw [start,hl]
    exact ⟨rfl,LRUStore.represents_new capacity⟩
  follower := by
    rw [start,hf]
    exact ⟨rfl,LRUStore.represents_new capacity⟩
  leaderKeys := fun k hk => absurd hk (AList.notMem_empty k)
  followerKeys := fun k hk => absurd hk (AList.notMem_empty k)
  outboxKeys := by simp [start]
  newest := by simp [start]
  outbox := by simp [start]
  known := by simp [start,versions]
  current := by simp [start,held,versions]
  synced := by simp [start,stamps]

theorem value_append {more : List Bytes} {n : ℕ} {v : Bytes} (h : s.value n = some v)
    {t : Observed} (ht : t.values = s.values ++ more) : t.value n = some v := by
  unfold value at h ⊢
  by_cases hn : n = 0
  · simp [hn] at h
  · rw [if_neg hn] at h ⊢
    obtain ⟨hlt,_⟩ := List.getElem?_eq_some_iff.mp h
    rw [ht,List.getElem?_append_left hlt,h]

theorem assign_key (es : List (Σ _ : Bytes, Bytes)) (m : Bytes → Option Bytes) (vs : List Bytes)
    (hm : m key = vs.getLast?) : assign es m key =
      (vs ++ (es.filter fun e => decide (e.1 = key)).map fun e => e.2).getLast? := by
  induction es generalizing m vs with
  | nil => simpa using hm
  | cons e es ih =>
    rw [RecencyCache.assign_cons]
    by_cases he : e.1 = key
    · have hrest := ih (Function.update m e.1 (some e.2)) (vs ++ [e.2]) (by simp [he])
      rw [hrest]
      simp [he]
    · have hrest := ih (Function.update m e.1 (some e.2)) vs
        (by rw [Function.update_of_ne (Ne.symm he),hm])
      rw [hrest]
      simp [he]

theorem value_length {vs : List Bytes} {v : Bytes} (h : vs.getLast? = some v)
    (ht : t.values = vs) : t.value vs.length = some v := by
  have hpos : vs.length ≠ 0 := by
    intro hlen
    simp [List.eq_nil_of_length_eq_zero hlen] at h
  rw [value,if_neg hpos,ht,← List.getLast?_eq_getElem?,h]

theorem mem_writes_leader {input : Input} {s : KiviLeaf} (h : fromPeer input = false)
    {k v : Bytes} (hmem : ⟨k,v⟩ ∈ input.writes s) : ∃ now, input = .put k v now := by
  rcases Input.mem_writes hmem with ⟨msg,clock,order,rfl,hcarries⟩ | ⟨now,hin,_⟩
  · cases msg with
    | localSyncPush m => simp [fromPeer,Message.stamp] at h
    | localSyncResponse m => simp [fromPeer,Message.stamp] at h
    | _ => exact hcarries.elim
  · exact ⟨now,hin⟩

/-- What the leader sends carries what its store holds after its step. -/
theorem Tracks.sends (h : Tracks key capacity ks s l f) {up : Reachability} {input : Input}
    {r : KiviLeaf × List Packet} (hr : s.leader.react up input = .ok r)
    (hkeys : ∀ k v now, input = .put k v now → k ∈ ks) {p : Packet} (hp : p ∈ r.2) {k v : Bytes}
    (hcarries : p.msg.Carries k v) :
    k ∈ ks ∧ (k = key → (s.values ++ newValues key input s.leader).getLast? = some v) := by
  have hsends := (KiviLeaf.react_reaction hr).sends p hp
  cases hmsg : p.msg with
  | localSyncPush m =>
    rw [hmsg] at hsends hcarries
    obtain ⟨rfl,rfl⟩ := hcarries
    obtain ⟨_,rfl,hacc,hk,hv⟩ := hsends
    refine ⟨hkeys _ _ _ rfl,?_⟩
    rintro rfl
    simp [newValues,Input.writes,hacc,hk,hv]
  | localSyncResponse m =>
    rw [hmsg] at hsends hcarries
    obtain ⟨_,req,clock,order,rfl,hpayload⟩ := hsends
    obtain ⟨ts,hts⟩ := hcarries
    rw [hpayload] at hts
    have hstored := order.mem_arrange.mp (LocalSyncPayload.lookup_of_mem_loadFromMap hts)
    have hlookup : l.lookup k = some v := (h.leader.2.lookup k).symm.trans hstored
    refine ⟨h.leaderKeys.lookup hlookup,?_⟩
    rintro rfl
    simpa [newValues,Input.writes,h.newest] using hlookup
  | _ => simp [hmsg,Message.Carries] at hcarries

theorem Tracks.led (hc : 1 ≤ capacity) (hcard : ks.card ≤ capacity)
    (h : Tracks key capacity ks s l f) {up : Reachability} {input : Input}
    {r : KiviLeaf × List Packet} (hpeer : fromPeer input = false)
    (hr : s.leader.react up input = .ok r) (hkeys : ∀ k v now, input = .put k v now → k ∈ ks) :
    Tracks key capacity ks (s.led key input r) (input.cacheAfter s.leader l) f := by
  obtain ⟨hcap,hl⟩ := h.leader
  obtain ⟨hcap',hl'⟩ := KiviLeaf.represents_of_react (by omega) hl hr
  have hwrites : ∀ e ∈ input.writes s.leader, e.1 ∈ ks := by
    rintro ⟨k,v⟩ hmem
    obtain ⟨now,hin⟩ := mem_writes_leader hpeer hmem
    exact hkeys k v now hin
  have hvalues : (s.led key input r).values = s.values ++ newValues key input s.leader := rfl
  have hknown : ∀ n v, s.value n = some v → (s.led key input r).value n = some v :=
    fun n v hv => value_append hv hvalues
  have hnew : ∀ m ∈ (addressed s.follower.toPaxosNode r.2).map fun msg =>
      ((s.values ++ newValues key input s.leader).length,msg), ∀ k v, m.2.Carries k v →
        k ∈ ks ∧ (k = key → (s.led key input r).value m.1 = some v) := by
    intro m hm k v hcarries
    obtain ⟨msg,hmsg,rfl⟩ := List.mem_map.mp hm
    obtain ⟨p,hp,rfl,_⟩ := mem_addressed hmsg
    obtain ⟨hk,hlast⟩ := h.sends hr hkeys hp hcarries
    exact ⟨hk,fun hkey => value_length (hlast hkey) hvalues⟩
  refine ⟨⟨hcap'.trans hcap,hl'⟩,h.follower,input.within_cacheAfter h.leaderKeys hwrites,
    h.followerKeys,?_,?_,?_,?_,?_,h.synced⟩
  · intro m hm k v hcarries
    rcases List.mem_append.mp hm with hm | hm
    · exact h.outboxKeys m hm k v hcarries
    · exact (hnew m hm k v hcarries).1
  · rw [Input.lookup_cacheAfter_within (by omega) h.leaderKeys input hwrites key]
    exact assign_key _ _ _ h.newest
  · intro m hm v hcarries
    rcases List.mem_append.mp hm with hm | hm
    · exact hknown m.1 v (h.outbox m hm v hcarries)
    · exact (hnew m hm key v hcarries).2 rfl
  · intro n hn
    obtain ⟨v,hv⟩ := Option.isSome_iff_exists.mp (h.known n hn)
    simp [hknown n v hv]
  · rw [h.current]
    change (s.held key).bind s.value = (s.held key).bind (s.led key input r).value
    cases hheld : s.held key with
    | none => rfl
    | some n =>
      obtain ⟨v,hv⟩ := Option.isSome_iff_exists.mp (h.known n (List.mem_of_mem_head? hheld))
      simp [hv,hknown n v hv]

theorem Tracks.received (hc : 1 ≤ capacity) (hcard : ks.card ≤ capacity)
    (h : Tracks key capacity ks s l f) {m : ℕ × Message} (hm : m ∈ s.outbox) {up : Reachability}
    {clock : Clock} {order : HashOrder} {r : KiviLeaf × List Packet}
    (hr : s.follower.react up (.message m.2 clock order) = .ok r) :
    Tracks key capacity ks (s.received m r) l
      ((Input.message m.2 clock order).cacheAfter s.follower f) := by
  obtain ⟨hcap,hf⟩ := h.follower
  obtain ⟨hcap',hf'⟩ := KiviLeaf.represents_of_react (by omega) hf hr
  have hcarried : ∀ k v, ⟨k,v⟩ ∈ (Input.message m.2 clock order).writes s.follower →
      m.2.Carries k v := by
    intro k v hmem
    rcases Input.mem_writes hmem with ⟨msg,_,_,hin,hcarries⟩ | ⟨_,hin,_⟩
    · simp only [Input.message.injEq] at hin
      rwa [hin.1]
    · simp at hin
  have hwrites : ∀ e ∈ (Input.message m.2 clock order).writes s.follower, e.1 ∈ ks :=
    fun e he => h.outboxKeys m hm e.1 e.2 (hcarried e.1 e.2 he)
  have hlookup := Input.lookup_cacheAfter_within (by omega) h.followerKeys
    (.message m.2 clock order) hwrites key
  refine ⟨h.leader,⟨hcap'.trans hcap,hf'⟩,h.leaderKeys,Input.within_cacheAfter h.followerKeys _ hwrites,
    h.outboxKeys,h.newest,h.outbox,?_,?_,?_⟩
  · intro n hn
    by_cases hcarries : m.2.carries key = true
    · simp only [versions,Observed.received,List.filter_cons,hcarries,if_true,List.map_cons,
        List.mem_cons] at hn
      rcases hn with rfl | hn
      · obtain ⟨v,hv⟩ := Message.carries_iff.mp hcarries
        have hvalue := h.outbox m hm v hv
        exact Option.isSome_iff_exists.mpr ⟨v,hvalue⟩
      · exact h.known n hn
    · simp only [versions,Observed.received,List.filter_cons,hcarries] at hn
      exact h.known n hn
  · rw [hlookup]
    by_cases hcarries : m.2.carries key = true
    · obtain ⟨v,hmem,hv⟩ := Input.mem_writes_message (s:=s.follower) hcarries clock order
      have hvalue := h.outbox m hm v hv
      have honly : ∀ w, ⟨key,w⟩ ∈ (Input.message m.2 clock order).writes s.follower → w = v := by
        intro w hw
        have hw' := h.outbox m hm w (hcarried key w hw)
        exact Option.some.inj (hw'.symm.trans hvalue)
      rw [RecencyCache.assign_of_mem honly hmem]
      simp only [held,versions,Observed.received,List.filter_cons,hcarries,if_true,List.map_cons,
        List.head?_cons,Option.bind_some]
      exact hvalue.symm
    · have hnone : ∀ e ∈ (Input.message m.2 clock order).writes s.follower, e.1 ≠ key := by
        rintro ⟨k,v⟩ he rfl
        exact hcarries (Message.carries_iff.mpr ⟨v,hcarried k v he⟩)
      rw [RecencyCache.assign_of_notMem hnone,h.current]
      simp only [held,versions,Observed.received,List.filter_cons,hcarries]
      rfl
  · intro ts hts
    have hsync := KiviLeaf.handle_lastSyncTime hr
    change r.1.lastSyncTime = ts
    rw [hsync]
    cases hstamp : m.2.stamp with
    | some ts' => simpa [stamps,Observed.received,hstamp] using hts
    | none =>
      have hold : ts ∈ s.stamps.head? := by simpa [stamps,Observed.received,hstamp] using hts
      exact h.synced ts hold

/-! ### Runs -/

variable {leader follower : KiviLeaf} {history : List (Taken Observed Event)}

def PutsWithin (ks : Finset Bytes) (history : List (Taken Observed Event)) : Prop :=
  ∀ x ∈ history, ∀ up k v now, x.event = .lead up (.put k v now) → k ∈ ks

theorem tracks_of_run (hc : 1 ≤ capacity) (hcard : ks.card ≤ capacity)
    (hl : leader.kivi = .new capacity) (hf : follower.kivi = .new capacity)
    (hrun : Run (step key) (start leader follower) history s) (hkeys : PutsWithin ks history) :
    ∃ l f, Tracks key capacity ks s l f := by
  have hall : PutsWithin ks history → ∃ l f, Tracks key capacity ks s l f := by
    apply hrun.history_invariant (I:=fun history s => PutsWithin ks history →
      ∃ l f, Tracks key capacity ks s l f)
    · exact fun _ => ⟨∅,∅,tracks_start hl hf⟩
    · intro history s e t _ ih hstep hkeys
      obtain ⟨l,f,h⟩ := ih fun x hx => hkeys x (List.mem_cons_of_mem _ hx)
      rcases step_cases hstep with ⟨up,input,r,rfl,hpeer,hr,rfl⟩ | ⟨n,clock,order,m,r,rfl,hm,hr,rfl⟩
      · have hputs : ∀ k v now, input = .put k v now → k ∈ ks := by
          rintro k v now rfl
          exact hkeys _ List.mem_cons_self up k v now rfl
        exact ⟨_,_,h.led hc hcard hpeer hr hputs⟩
      · exact ⟨_,_,h.received hc hcard (List.mem_of_getElem? hm) hr⟩
  exact hall hkeys

theorem versions_step (h : s.step key e = some t) :
    t.versions key = s.versions key ∨ ∃ n, t.versions key = n :: s.versions key := by
  rcases step_cases h with ⟨up,input,r,rfl,_,_,rfl⟩ | ⟨n,clock,order,m,r,rfl,_,_,rfl⟩
  · exact .inl rfl
  · by_cases hcarries : m.2.carries key = true
    · right
      exact ⟨m.1,by simp [versions,Observed.received,hcarries]⟩
    · left
      simp [versions,Observed.received,hcarries]

theorem stamps_step (h : s.step key e = some t) :
    t.stamps = s.stamps ∨ ∃ ts, t.stamps = ts :: s.stamps := by
  rcases step_cases h with ⟨up,input,r,rfl,_,_,rfl⟩ | ⟨n,clock,order,m,r,rfl,_,_,rfl⟩
  · exact .inl rfl
  · cases hstamp : m.2.stamp with
    | none =>
      left
      simp [stamps,Observed.received,hstamp]
    | some ts =>
      right
      exact ⟨ts,by simp [stamps,Observed.received,hstamp]⟩

/-- Once the follower has held a version of the key, it never holds an earlier one. -/
def NeverBack (key : Bytes) (history : List (Taken Observed Event)) : Prop :=
  history.Pairwise fun later earlier =>
    ∀ i ∈ earlier.post.held key, ∀ j ∈ later.post.held key, i ≤ j

/-- Once the follower has been sent data, its `last_sync_time` never decreases. -/
def SyncNeverBack (history : List (Taken Observed Event)) : Prop :=
  history.Pairwise fun later earlier => earlier.post.stamps ≠ [] →
    earlier.post.follower.lastSyncTime ≤ later.post.follower.lastSyncTime

theorem syncNeverBack_iff (hc : 1 ≤ capacity) (hcard : ks.card ≤ capacity)
    (hl : leader.kivi = .new capacity) (hf : follower.kivi = .new capacity)
    (hrun : Run (step key) (start leader follower) history s) (hkeys : PutsWithin ks history) :
    SyncNeverBack history ↔ s.stamps.Pairwise fun later earlier => earlier ≤ later := by
  have hlog := fun (s : Observed) (e : Event) (t : Observed) (h : s.step key e = some t) =>
    stamps_step h
  have hsuffixes := hrun.log_suffixes hlog
  have hsynced : ∀ x ∈ history, ∀ ts rest, x.post.stamps = ts::rest →
      x.post.follower.lastSyncTime = ts := by
    intro x hx ts rest hstamps
    obtain ⟨hstep,before,hbefore,hsuffix⟩ := hrun.taken_step hx
    have hwithin : PutsWithin ks (x::before) := fun y hy => hkeys y (hsuffix.subset hy)
    obtain ⟨_,_,h⟩ := tracks_of_run hc hcard hl hf (hbefore.snoc hstep) hwithin
    exact h.synced ts (by simp [hstamps])
  have horder := hrun.heads_ordered_iff Int64.le_refl rfl hlog
  rw [← horder]
  constructor
  · intro h
    refine h.imp_of_mem fun {y x} hy hx hle a ha b hb => ?_
    obtain ⟨as,has⟩ := List.head?_eq_some_iff.mp ha
    obtain ⟨bs,hbs⟩ := List.head?_eq_some_iff.mp hb
    have hle' := hle (by simp [has])
    rwa [hsynced x hx a as has,hsynced y hy b bs hbs] at hle'
  · intro h
    refine (h.and hsuffixes).imp_of_mem fun {y x} hy hx hboth hne => ?_
    cases hx' : x.post.stamps with
    | nil => exact absurd hx' hne
    | cons a as =>
      cases hy' : y.post.stamps with
      | nil =>
        have hsuffix := hboth.2
        simp [hx',hy'] at hsuffix
      | cons b bs =>
        rw [hsynced x hx a as hx',hsynced y hy b bs hy']
        exact hboth.1 a (by simp [hx']) b (by simp [hy'])

/-- The follower holds the version that the last message with the key brought, whatever the
order. So it never goes back exactly when these messages are handled in the order of their
versions, and `last_sync_time` exactly when the messages are handled in the order of theirs. -/
theorem follower_in_order_iff {key : Bytes} {capacity : ℕ} (hc : 1 ≤ capacity)
    {leader follower : KiviLeaf} (hl : leader.kivi = .new capacity)
    (hf : follower.kivi = .new capacity) {history : List (Taken Observed Event)} {s : Observed}
    (hrun : Run (step key) (start leader follower) history s) {ks : Finset Bytes}
    (hcard : ks.card < capacity) (hkeys : PutsWithin ks history) :
    s.follower.kivi.getKvBatch.lookup key = (s.held key).bind s.value ∧
    (NeverBack key history ↔ (s.versions key).Pairwise fun later earlier => earlier ≤ later) ∧
    (SyncNeverBack history ↔ s.stamps.Pairwise fun later earlier => earlier ≤ later) := by
  obtain ⟨l,f,h⟩ := tracks_of_run hc hcard.le hl hf hrun hkeys
  refine ⟨?_,?_,syncNeverBack_iff hc hcard.le hl hf hrun hkeys⟩
  · rw [← h.current]
    exact h.follower.2.lookup key
  · exact hrun.heads_ordered_iff Nat.le_refl rfl fun _ _ _ h => versions_step h

/-! ### Two pushes that overtake each other -/

def Event.index : Event → Option ℕ
  | .lead _ _ => none
  | .handle n _ _ => some n

/-- A run of the observed nodes in which few keys are put, no message is handled twice and
the clock of the leader does not go back. -/
structure Ordinary (key : Bytes) (history : List (Taken Observed Event)) (s : Observed) : Prop where
  run : ∃ (leader follower : KiviLeaf) (capacity : ℕ) (ks : Finset Bytes), 1 ≤ capacity ∧
    leader.kivi = .new capacity ∧ follower.kivi = .new capacity ∧ ks.card < capacity ∧
    Run (step key) (start leader follower) history s ∧ PutsWithin ks history
  once : (history.filterMap fun x => x.event.index).Nodup
  clock : (s.outbox.filterMap fun m => m.2.stamp).Pairwise fun earlier later => earlier ≤ later

def overtaking : List Event :=
  [.lead Cluster.reachable (.put [0x6B] [0x61] 1),.lead Cluster.reachable (.put [0x6B] [0x62] 2),
    .handle 1 ⟨3,3⟩ .stored,.handle 0 ⟨4,4⟩ .stored]

theorem overtaking_run : ∃ history s,
    Run (step [0x6B]) (start (Cluster.trio 0).leaf (Cluster.trio 1).leaf) history s ∧
      history.map Taken.event = overtaking.reverse ∧ s.versions [0x6B] = [1,2] ∧
      s.stamps = [1,2] ∧ (s.outbox.filterMap fun m => m.2.stamp) = [1,2] ∧
      s.value 1 = some [0x61] := by
  have hend : (Transition.exec (step [0x6B]) (start (Cluster.trio 0).leaf (Cluster.trio 1).leaf)
      overtaking).any (fun s => decide (s.versions [0x6B] = [1,2] ∧ s.stamps = [1,2] ∧
        (s.outbox.filterMap fun m => m.2.stamp) = [1,2] ∧ s.value 1 = some [0x61])) = true := by
    decide +kernel
  obtain ⟨history,s,hrun,hevents,hs⟩ := Run.of_exec_any overtaking hend
  exact ⟨history,s,hrun,hevents,of_decide_eq_true hs⟩

theorem overtaking_putsWithin {history : List (Taken Observed Event)}
    (h : history.map Taken.event = overtaking.reverse) : PutsWithin {[0x6B]} history := by
  intro x hx up k v now hevent
  have hmem := Run.event_mem h hx
  rw [hevent] at hmem
  simp only [overtaking,List.mem_cons,Event.lead.injEq,Input.put.injEq,
    reduceCtorEq,List.not_mem_nil,or_false] at hmem
  rcases hmem with ⟨_,rfl,_⟩ | ⟨_,rfl,_⟩
  · exact Finset.mem_singleton_self _
  · exact Finset.mem_singleton_self _

theorem not_in_order :
    (¬ ∀ key history s, Ordinary key history s → NeverBack key history) ∧
      ¬ ∀ key history s, Ordinary key history s → SyncNeverBack history := by
  obtain ⟨history,s,hrun,hevents,hversions,hstamps,hclock,_⟩ := overtaking_run
  have hputs := overtaking_putsWithin hevents
  have honce : (history.filterMap fun x => x.event.index).Nodup := by
    have hindex : (history.filterMap fun x => x.event.index) =
        (history.map Taken.event).filterMap Event.index := by
      rw [List.filterMap_map]
      rfl
    rw [hindex,hevents]
    decide
  have hordinary : Ordinary [0x6B] history s :=
    ⟨⟨_,_,100,{[0x6B]},by decide,rfl,rfl,by decide,hrun,hputs⟩,honce,by rw [hclock]; decide⟩
  constructor
  · intro h
    have horder := (hrun.heads_ordered_iff Nat.le_refl rfl fun _ _ _ h => versions_step h).mp
      (h _ _ _ hordinary)
    rw [hversions] at horder
    exact absurd horder (by decide)
  · intro h
    have hcard : ({[0x6B]} : Finset Bytes).card ≤ 100 := by decide
    have horder := (syncNeverBack_iff (by decide) hcard rfl rfl hrun hputs).mp (h _ _ _ hordinary)
    rw [hstamps] at horder
    exact absurd horder (by decide)

theorem follower_in_order_iff_overtaking : ∃ history s,
    Run (step [0x6B]) (start (Cluster.trio 0).leaf (Cluster.trio 1).leaf) history s ∧
      s.follower.kivi.getKvBatch.lookup [0x6B] = some [0x61] ∧ ¬ NeverBack [0x6B] history := by
  obtain ⟨history,s,hrun,hevents,hversions,_,_,hvalue⟩ := overtaking_run
  have hcard : ({[0x6B]} : Finset Bytes).card < 100 := by decide
  obtain ⟨hstored,horder,_⟩ := follower_in_order_iff (by decide) rfl rfl hrun hcard
    (overtaking_putsWithin hevents)
  refine ⟨history,s,hrun,?_,fun h => ?_⟩
  · rw [hstored,held,hversions]
    exact hvalue
  · have hback := horder.mp h
    rw [hversions] at hback
    exact absurd hback (by decide)

end Observed
end Kivi
