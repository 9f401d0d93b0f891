import Kivi.Leaf.Machine

/-! What the inputs of a leaf write to its store, and which messages carry data. -/
namespace Kivi

open RecencyCache (Assoc assign)
open RestController (acceptsPut)

theorem HashOrder.mem_arrange (order : HashOrder) {m : UnorderedMap Bytes Bytes} {k v : Bytes} :
    ⟨k,v⟩ ∈ (order.arrange m).entries ↔ m.lookup k = some v := by
  rw [(order.perm m).mem_iff,← Option.mem_def,AList.mem_lookup_iff]

namespace LocalSyncPayload

theorem mem_of_lookup_getPayload {p : LocalSyncPayload} {k v : Bytes}
    (h : p.getPayload.lookup k = some v) : ∃ ts, (k,v,ts) ∈ p.updates := by
  have hfold : p.getPayload = (p.updates.map fun u => (u.1,u.2.1)).foldl
      (fun m e => m.insert e.1 e.2) (∅ : UnorderedMap Bytes Bytes) := by
    simp only [getPayload,List.foldl_map]
  rw [hfold] at h
  rcases mem_of_lookup_insertAll _ _ h with hmem | hempty
  · obtain ⟨⟨k',v',ts⟩,hu,heq⟩ := List.mem_map.mp hmem
    obtain ⟨rfl,rfl⟩ := Prod.mk.inj heq
    exact ⟨ts,hu⟩
  · simp at hempty

theorem lookup_getPayload_of_mem {p : LocalSyncPayload} {k v : Bytes} {ts : Int64}
    (h : (k,v,ts) ∈ p.updates) : ∃ w, p.getPayload.lookup k = some w := by
  have hinsert : ∀ (us : List (Bytes × Bytes × Int64)) (m : UnorderedMap Bytes Bytes),
      (k ∈ m ∨ ∃ u ∈ us, u.1 = k) → k ∈ us.foldl (fun m u => m.insert u.1 u.2.1) m := by
    intro us
    induction us with
    | nil => simp
    | cons u us ih =>
      intro m hor
      apply ih
      by_cases hu : u.1 = k
      · exact .inl ((AList.mem_insert m).mpr (.inl hu.symm))
      · rcases hor with hm | ⟨u',hmem,hu'⟩
        · exact .inl ((AList.mem_insert m).mpr (.inr hm))
        · rcases List.mem_cons.mp hmem with rfl | hmem
          · exact absurd hu' hu
          · exact .inr ⟨u',hmem,hu'⟩
  exact Option.isSome_iff_exists.mp (AList.lookup_isSome.mpr (hinsert p.updates ∅ (.inr ⟨_,h,rfl⟩)))

theorem lookup_of_mem_loadFromMap {nowMs ts : Int64} {d : UnorderedMap Bytes Bytes} {k v : Bytes}
    (h : (k,v,ts) ∈ (loadFromMap nowMs d).updates) : ⟨k,v⟩ ∈ d.entries := by
  obtain ⟨⟨k',v'⟩,he,heq⟩ := List.mem_map.mp h
  simp only [Prod.mk.injEq] at heq
  obtain ⟨rfl,rfl,rfl⟩ := heq
  exact he

end LocalSyncPayload

def Message.Carries (k v : Bytes) : Message → Prop
  | .localSyncPush m => m.key = k ∧ m.value = v
  | .localSyncResponse m => ∃ ts, (k,v,ts) ∈ m.payload.updates
  | _ => False

namespace Message

def carries (k : Bytes) : Message → Bool
  | .localSyncPush m => decide (m.key = k)
  | .localSyncResponse m => m.payload.updates.any fun u => decide (u.1 = k)
  | _ => false

theorem carries_iff {k : Bytes} {msg : Message} :
    msg.carries k = true ↔ ∃ v, msg.Carries k v := by
  cases msg with
  | localSyncPush m => simp [carries,Carries]
  | localSyncResponse m => simp [carries,Carries]
  | _ => simp [carries,Carries]

end Message

theorem KiviLeaf.handle_lastSyncTime {up : Reachability} {clock : Clock} {order : HashOrder}
    {msg : Message} {s : KiviLeaf} {r : KiviLeaf × List Packet}
    (h : s.react up (.message msg clock order) = .ok r) :
    r.1.lastSyncTime = msg.stamp.getD s.lastSyncTime := by
  rcases handleMessage_cases h with ⟨ts,kivi,hstamp,rfl⟩ | ⟨hstamp,rfl | ⟨_,_,_,rfl⟩ | ⟨_,_,rfl⟩ |
    ⟨_,_,rfl⟩⟩
  all_goals
    rw [hstamp]
    rfl

theorem Input.lookup_cacheAfter {s : KiviLeaf} {l : Assoc Bytes Bytes} {k v : Bytes} (input : Input)
    (h : (input.cacheAfter s l).lookup k = some v) : ⟨k,v⟩ ∈ input.writes s ∨ l.lookup k = some v := by
  have hput : ∀ input : Input,
      (RecencyCache.putAll s.kivi.engine.capacity (input.writes s) l).lookup k = some v →
        ⟨k,v⟩ ∈ input.writes s ∨ l.lookup k = some v := fun _ hl => RecencyCache.lookup_putAll _ hl
  cases input with
  | get key =>
    cases key with
    | none => exact hput (.get none) h
    | some key =>
      right
      rwa [cacheAfter,RecencyCache.lookup_get] at h
  | _ => exact hput _ h

/-- An input writes what its message carries or what an accepted request puts. -/
theorem Input.mem_writes {s : KiviLeaf} {k v : Bytes} {input : Input}
    (h : ⟨k,v⟩ ∈ input.writes s) :
    (∃ msg clock order, input = .message msg clock order ∧ msg.Carries k v) ∨
      ∃ now, input = .put k v now ∧ acceptsPut s = true ∧ k ≠ [] ∧ v ≠ [] := by
  cases input with
  | message msg clock order =>
    left
    refine ⟨msg,clock,order,rfl,?_⟩
    cases msg with
    | localSyncPush m =>
      simp only [writes,List.mem_singleton,Sigma.mk.injEq,heq_eq_eq] at h
      exact ⟨h.1.symm,h.2.symm⟩
    | localSyncResponse m =>
      exact LocalSyncPayload.mem_of_lookup_getPayload (order.mem_arrange.mp h)
    | _ => simp [writes] at h
  | put key value now =>
    right
    by_cases hacc : acceptsPut s ∧ key ≠ [] ∧ value ≠ []
    · simp only [writes,if_pos hacc,List.mem_singleton,Sigma.mk.injEq,heq_eq_eq] at h
      obtain ⟨rfl,rfl⟩ := h
      exact ⟨now,rfl,hacc⟩
    · simp [writes,if_neg hacc] at h
  | _ => simp [writes] at h

theorem Input.mem_writes_message {s : KiviLeaf} {k : Bytes} {msg : Message} (h : msg.carries k = true)
    (clock : Clock) (order : HashOrder) :
    ∃ v, ⟨k,v⟩ ∈ (Input.message msg clock order).writes s ∧ msg.Carries k v := by
  cases msg with
  | localSyncPush m =>
    obtain rfl : m.key = k := of_decide_eq_true h
    exact ⟨m.value,by simp [writes],rfl,rfl⟩
  | localSyncResponse m =>
    obtain ⟨v,ts,hv⟩ := Message.carries_iff.mp h
    obtain ⟨w,hw⟩ := LocalSyncPayload.lookup_getPayload_of_mem hv
    exact ⟨w,order.mem_arrange.mpr hw,LocalSyncPayload.mem_of_lookup_getPayload hw⟩
  | _ => simp [Message.carries] at h

theorem Input.lookup_cacheAfter_within {s : KiviLeaf} {l : Assoc Bytes Bytes} {ks : Finset Bytes}
    (hcard : ks.card ≤ s.kivi.engine.capacity) (hl : RecencyCache.Within ks l) (input : Input)
    (hwrites : ∀ e ∈ input.writes s, e.1 ∈ ks) (k : Bytes) :
    (input.cacheAfter s l).lookup k = assign (input.writes s) (fun k => l.lookup k) k := by
  have hput := congrFun (RecencyCache.lookup_putAll_within hcard (input.writes s) hl hwrites) k
  cases input with
  | get key =>
    cases key with
    | none => exact hput
    | some key => simp [cacheAfter,writes]
  | _ => exact hput

theorem Input.within_cacheAfter {s : KiviLeaf} {l : Assoc Bytes Bytes} {ks : Finset Bytes}
    (hl : RecencyCache.Within ks l) (input : Input) (hwrites : ∀ e ∈ input.writes s, e.1 ∈ ks) :
    RecencyCache.Within ks (input.cacheAfter s l) := by
  apply RecencyCache.within_of_lookup
  intro k v hk
  rcases input.lookup_cacheAfter hk with hmem | hold
  · exact hwrites _ hmem
  · exact hl.lookup hold

end Kivi
