import Kivi.Leaf.Machine
import Kivi.Library.RecencyTrace

/-! What a failed `PUT /put` leaves behind. -/
namespace Kivi

open Bytes (ofString isUtf8)
open RecencyCache (Assoc)

namespace LRUStore

variable {s s' : LRUStore} {l : Assoc Bytes Bytes} {key value : Bytes}

def Alike (s t : LRUStore) : Prop :=
  t.lruList.values = s.lruList.values ∧ ∀ k, t.store.get k = s.store.get k

/-- A put shows unless it repeats the entry in front. -/
theorem put_alike_iff (hc : 1 ≤ s.capacity) (h : s.Represents l) (hput : s.put key value = .ok s') :
    s.Alike s' ↔ s.lruList.values.head? = some key ∧ s.store.get key = some value := by
  obtain ⟨t,ht,_,hr⟩ := put_spec hc h key value
  obtain rfl : s' = t := Except.ok.inj (hput.symm.trans ht)
  have hkeys := hr.keys
  rw [RecencyCache.keys_put h.bounded] at hkeys
  have hself : s'.store.get key = some value :=
    (hr.lookup key).trans (RecencyCache.lookup_put_self _ _ _ _)
  constructor
  · rintro ⟨hlist,hget⟩
    rw [← hlist,← hget,hkeys,hself]
    exact ⟨rfl,rfl⟩
  · rintro ⟨hhead,hvalue⟩
    obtain ⟨rest,hrest⟩ := List.head?_eq_some_iff.mp hhead
    have hnot : key ∉ rest := (List.nodup_cons.mp (hrest ▸ h.indexed.nodup)).1
    have hmem : key ∈ l := (h.mem_values key).mp (by rw [hrest]; exact List.mem_cons_self)
    refine ⟨?_,fun k => ?_⟩
    · rw [hkeys,RecencyCache.touch,if_pos (.inl (AList.mem_keys.mp hmem)),← h.keys,hrest,
        List.filter_cons_of_neg (by simp),RecencyCache.filter_ne_self hnot]
    · by_cases hk : k = key
      · rw [hk,hself,hvalue]
      · exact ((hr.lookup k).trans (RecencyCache.lookup_put_of_lt hk (.inl hmem))).trans
          (h.lookup k).symm

end LRUStore

/-! ### What throws -/

theorem LocalSyncPushMessage.clean_toJson (m : LocalSyncPushMessage) :
    m.toJson.clean = true ↔ isUtf8 m.key = true ∧ isUtf8 m.value = true := by
  rw [toJson,Json.clean_ofFields_iff (by simp only [List.map_cons,List.map_nil]; decide)]
  simp +decide [Json.clean,Json.ofInt32,Json.ofInt64]

theorem Message.serialize_push (m : LocalSyncPushMessage) :
    (Message.localSyncPush m).serialize =
      if m.toJson.clean then .ok m.toJson.write else .error .typeError := rfl

namespace RestController

variable {up : Reachability} {now : Int64} {key value : Bytes} {s : KiviLeaf} {kivi : KiviTree}

/-- The request gets an answer, and one that reports a failure comes with the store as it was
and without a push. -/
def FailsCleanly (up : Reachability) (now : Int64) (key value : Bytes) (s : KiviLeaf) : Prop :=
  ∃ s' packets response, put up now key value s = .ok (s',packets,response) ∧
    (400 ≤ response.status → s.kivi.engine.Alike s'.kivi.engine ∧
      ∀ p ∈ packets, ∀ req, p.msg ≠ .localSyncPush req)

/-- The reply can be written, and so can every push for which a connection is made. -/
def Writable (up : Reachability) (key value : Bytes) (s : KiviLeaf) : Prop :=
  isUtf8 key = true ∧
    (isUtf8 value = true ∨ ∀ n ∈ s.followers, up n.nodeIp n.nodePort = false)

/-- An accepted request whose pair is not the entry last used is writable. -/
def Harmless (up : Reachability) (key value : Bytes) (s : KiviLeaf) : Prop :=
  acceptsPut s = true → key ≠ [] → value ≠ [] → Writable up key value s ∨
    s.kivi.engine.lruList.values.head? = some key ∧ s.kivi.engine.store.get key = some value

theorem status_reply (key : Bytes) :
    (Response.ofContent 200 (.ofFields [(ofString "status",.string (ofString "OK")),
      (ofString "key",.string key)])).status = if isUtf8 key = true then 200 else 500 := by
  have hkey : (Json.ofFields [(ofString "status",.string (ofString "OK")),
      (ofString "key",.string key)]).clean = isUtf8 key := by
    rw [Bool.eq_iff_iff,Json.clean_ofFields_iff (by simp only [List.map_cons,List.map_nil]; decide)]
    simp +decide [Json.clean]
  rw [Response.ofContent,Json.dump,hkey]
  cases isUtf8 key <;> rfl

/-- An accepted pair is stored in any case. The request fails when it is not writable, and
then nothing is sent. -/
theorem put_accepted (up : Reachability) (now : Int64) (hacc : acceptsPut s = true)
    (hk : key ≠ []) (hv : value ≠ []) (hkivi : s.kivi.put key value = .ok kivi) :
    ∃ packets response, put up now key value s = .ok ({ s with kivi },packets,response) ∧
      (400 ≤ response.status ↔ ¬ Writable up key value s) ∧
      (400 ≤ response.status → packets = []) := by
  have hempty : ¬ (key = [] ∨ value = []) := not_or.mpr ⟨hk,hv⟩
  let msg : LocalSyncPushMessage := ⟨s.nodeId,now,key,value⟩
  let push := PaxosNode.sendAll up s.followers (.localSyncPush msg)
  let reply := Response.ofContent 200 (.ofFields [(ofString "status",.string (ofString "OK")),
    (ofString "key",.string key)])
  have hput : put up now key value s = .ok ({ s with kivi },push.packets,
      if push.thrown = none then reply else .internalServerError) := by
    have hpush : KiviLeaf.pushToFollowers up now key value { s with kivi } = push := rfl
    rw [put,if_neg (not_not_intro hacc),if_neg hempty]
    simp only [hkivi,except_bind_ok,hpush]
    cases push.thrown <;> rfl
  have hstatus : reply.status = if isUtf8 key = true then 200 else 500 := status_reply key
  refine ⟨_,_,hput,?_⟩
  by_cases hclean : msg.toJson.clean = true
  · have hutf := (LocalSyncPushMessage.clean_toJson msg).mp hclean
    have hser := (Message.serialize_push msg).trans (if_pos hclean)
    have hnone : push.thrown = none := by
      simp only [push,PaxosNode.sendAll_of_ok hser]
    have hwritable : Writable up key value s := ⟨hutf.1,.inl hutf.2⟩
    rw [if_pos hnone,hstatus,if_pos hutf.1]
    simp [hwritable]
  · have hutf := mt (LocalSyncPushMessage.clean_toJson msg).mpr hclean
    have hser := (Message.serialize_push msg).trans (if_neg hclean)
    have hpush := PaxosNode.sendAll_of_error hser up s.followers
    refine ⟨?_,fun _ => hpush.1⟩
    have hwritable : Writable up key value s ↔ isUtf8 key = true ∧ push.thrown = none := by
      rw [Writable,hpush.2]
      exact and_congr_right fun hkey => or_iff_right fun hvalue => hutf ⟨hkey,hvalue⟩
    rw [hwritable]
    by_cases hnone : push.thrown = none
    · rw [if_pos hnone,hstatus]
      by_cases hkey : isUtf8 key = true <;> simp [hkey,hnone]
    · rw [if_neg hnone]
      simp [hnone,Response.internalServerError]

/-- Whatever the request and the state of the leaf, a failure is clean exactly when the
request is harmless. -/
theorem failsCleanly_iff {capacity : ℕ} (hc : 1 ≤ capacity)
    (hs : Refinement.Reaches LRUStore.step (LRUStore.new capacity) s.kivi.engine)
    (up : Reachability) (now : Int64) (key value : Bytes) :
    FailsCleanly up now key value s ↔ Harmless up key value s := by
  obtain ⟨l,rfl,hr⟩ := (LRUStore.simulates hc).reaches ⟨rfl,LRUStore.represents_new capacity⟩ hs
  obtain ⟨engine,hengine,_⟩ := LRUStore.put_spec hc hr key value
  have hkivi : s.kivi.put key value = .ok ⟨engine⟩ := by
    simp only [KiviTree.put,hengine,except_bind_ok,except_pure]
  have halike := LRUStore.put_alike_iff hc hr hengine
  by_cases haccepted : acceptsPut s = true ∧ key ≠ [] ∧ value ≠ []
  · obtain ⟨hacc,hk,hv⟩ := haccepted
    obtain ⟨packets,response,hput,hstatus,hpackets⟩ := put_accepted up now hacc hk hv hkivi
    have hclean : FailsCleanly up now key value s ↔
        (400 ≤ response.status → s.kivi.engine.Alike engine) := by
      constructor
      · rintro ⟨s',packets',response',hput',hfail⟩
        rw [hput] at hput'
        cases hput'
        exact fun hle => (hfail hle).1
      · intro h
        exact ⟨_,_,_,hput,fun hle => ⟨h hle,by simp [hpackets hle]⟩⟩
    rw [hclean,hstatus,halike,Harmless]
    exact ⟨fun h _ _ _ => or_iff_not_imp_left.mpr h,
      fun h => or_iff_not_imp_left.mp (h hacc hk hv)⟩
  · have hnot : FailsCleanly up now key value s := by
      have hsame : ∃ response, put up now key value s = .ok (s,[],response) := by
        unfold put
        by_cases hacc : acceptsPut s = true
        · have hempty : key = [] ∨ value = [] := by tauto
          exact ⟨_,by rw [if_neg (not_not_intro hacc),if_pos hempty]; rfl⟩
        · exact ⟨_,by rw [if_pos hacc]; rfl⟩
      obtain ⟨response,hput⟩ := hsame
      exact ⟨s,[],response,hput,fun _ => ⟨⟨rfl,fun _ => rfl⟩,by simp⟩⟩
    exact iff_of_true hnot fun hacc hk hv => (haccepted ⟨hacc,hk,hv⟩).elim

def pairLeader : KiviLeaf :=
  { KiviLeaf.new [] 5000 1 localLeader true 1 ⟨0,[],0,0,0,false⟩ 0 with
    localClusterNodes := [⟨2,[],5001,0,-1,true⟩] }

/-- A value that is not UTF-8 is stored, although the request fails while it is pushed. -/
theorem not_failsCleanly :
    (∃ s', put (fun _ _ => true) 0 [0x6B] [0xFF] pairLeader = .ok (s',[],.internalServerError) ∧
      pairLeader.kivi.engine.store.get [0x6B] = none ∧
      s'.kivi.engine.store.get [0x6B] = some [0xFF]) ∧
    ¬ ∀ s : KiviLeaf, Refinement.Reaches LRUStore.step (LRUStore.new 100) s.kivi.engine →
      ∀ up now key value, FailsCleanly up now key value s := by
  have hrun : ∃ s', put (fun _ _ => true) 0 [0x6B] [0xFF] pairLeader =
      .ok (s',[],.internalServerError) ∧ pairLeader.kivi.engine.store.get [0x6B] = none ∧
      s'.kivi.engine.store.get [0x6B] = some [0xFF] := ⟨_,rfl,rfl,rfl⟩
  refine ⟨hrun,fun h => ?_⟩
  obtain ⟨s',hput,hbefore,hafter⟩ := hrun
  obtain ⟨t,packets,response,hput',hfail⟩ := h pairLeader .start (fun _ _ => true) 0 [0x6B] [0xFF]
  rw [hput] at hput'
  cases hput'
  have hsame := (hfail (by decide)).1.2 [0x6B]
  rw [hbefore,hafter] at hsame
  cases hsame

def filledLeader (engine : LRUStore) : KiviLeaf := { pairLeader with kivi := ⟨engine⟩ }

/-- Storing the value again changes nothing, storing another one does. -/
theorem failsCleanly_iff_filled :
    ∃ engine, LRUStore.step (.put [0x6B] [0xFF]) (.new 100) = .ok (engine,.done) ∧
      (FailsCleanly (fun _ _ => true) 0 [0x6B] [0xFF] (filledLeader engine) ↔
        Harmless (fun _ _ => true) [0x6B] [0xFF] (filledLeader engine)) ∧
      FailsCleanly (fun _ _ => true) 0 [0x6B] [0xFF] (filledLeader engine) ∧
      ¬ FailsCleanly (fun _ _ => true) 0 [0x6B] [0xFE] (filledLeader engine) := by
  obtain ⟨engine,hput⟩ : ∃ engine,
      LRUStore.step (.put [0x6B] [0xFF]) (.new 100) = .ok (engine,.done) := ⟨_,rfl⟩
  have hiff := fun value => failsCleanly_iff (s:=filledLeader engine) (show 1 ≤ 100 by decide)
    (.next .start hput) (fun _ _ => true) 0 [0x6B] value
  cases hput
  refine ⟨_,rfl,hiff _,(hiff _).mpr fun _ _ _ => .inr ⟨rfl,rfl⟩,fun h => ?_⟩
  rcases (hiff _).mp h rfl (by decide) (by decide) with hwritable | hrepeated
  · rcases hwritable.2 with hvalue | hdown
    · exact absurd hvalue (by decide)
    · exact absurd (hdown _ List.mem_cons_self) (by decide)
  · exact absurd hrepeated.2 (by decide +kernel)

end RestController
end Kivi
