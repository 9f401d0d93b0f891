import Kivi.Core.LRUStore
import Kivi.Library.Refinement

/-! The store refines the reference cache. The list and the index agree node by node,
the list holds the keys of the reference in order and the hash store its values. -/
namespace Kivi

open RecencyCache (Assoc Op Answer)
open LinkedList (Fault Iterator)

@[simp] theorem except_bind_ok {φ : Type*} {α β : Type _} (a : α) (f : α → Except φ β) :
    (Except.ok a >>= f) = f a := rfl
@[simp] theorem except_pure {φ α : Type*} (a : α) : (pure a : Except φ α) = .ok a := rfl

theorem except_bind_eq_ok {ε α β : Type} {x : Except ε α} {f : α → Except ε β} {b : β} :
    (x >>= f) = .ok b ↔ ∃ a, x = .ok a ∧ f a = .ok b := by
  cases x with
  | error e => simp [bind,Except.bind]
  | ok a => simp [bind,Except.bind]

/-- Every key of the list is indexed by its own live node, and no other key is indexed. -/
structure Indexed (list : LinkedList Bytes) (index : UnorderedMap Bytes Iterator) : Prop where
  nodup : list.values.Nodup
  mem_iff : ∀ k, k ∈ index ↔ k ∈ list.values
  holds : ∀ k it, index.lookup k = some it → list.Holds it k

namespace Indexed

variable {list list' : LinkedList Bytes} {index : UnorderedMap Bytes Iterator} {key : Bytes}

theorem empty : Indexed .empty ∅ where
  nodup := by simp
  mem_iff := by simp
  holds := by simp

theorem subscript (h : Indexed list index) (hk : key ∈ list.values) :
    ∃ it, index.subscript none key = (it,index) ∧ list.Holds it key := by
  obtain ⟨it,hit⟩ := Option.isSome_iff_exists.mp (AList.lookup_isSome.mpr ((h.mem_iff key).mpr hk))
  exact ⟨it,by simp [UnorderedMap.subscript,hit],h.holds key it hit⟩

theorem without (h : Indexed list index)
    (hv : list'.values = list.values.filter (fun k => decide (k ≠ key)))
    (hh : ∀ it b, b ≠ key → list.Holds it b → list'.Holds it b) :
    Indexed list' (index.erase key) where
  nodup := hv ▸ h.nodup.filter _
  mem_iff k := by
    rw [AList.mem_erase,h.mem_iff,hv,List.mem_filter,decide_eq_true_eq,and_comm]
  holds k it hk := by
    have hne : k ≠ key := by
      rintro rfl
      simp at hk
    rw [AList.lookup_erase_ne hne] at hk
    exact hh it k hne (h.holds k it hk)

theorem erase (h : Indexed list index) {it : Iterator} (hit : list.Holds it key) :
    ∃ list', list.erase it = .ok list' ∧
      list'.values = list.values.filter (fun k => decide (k ≠ key)) ∧
      Indexed list' (index.erase key) := by
  obtain ⟨list',hl,hv,hh⟩ := LinkedList.erase_spec hit h.nodup
  exact ⟨list',hl,hv,h.without hv hh⟩

theorem popBack (h : Indexed list index) {ks : List Bytes} (hl : list.values = ks ++ [key]) :
    ∃ list', list.popBack = .ok list' ∧ list'.values = ks ∧ Indexed list' (index.erase key) := by
  obtain ⟨list',hp,hv,hh⟩ := LinkedList.popBack_spec hl
  have hd : (ks ++ [key]).Nodup := hl ▸ h.nodup
  have hks : ∀ k ∈ ks, k ≠ key := fun k hk =>
    (List.nodup_append.mp hd).2.2 k hk key (by simp)
  have hnot : key ∉ ks := fun hk => hks key hk rfl
  refine ⟨list',hp,hv,h.without ?_ hh⟩
  rw [hv,hl,List.filter_append,RecencyCache.filter_ne_self hnot]
  simp

theorem erase_of_notMem (h : Indexed list index) (hk : key ∉ list.values) :
    Indexed list (index.erase key) := by
  exact h.without (RecencyCache.filter_ne_self hk).symm fun _ _ _ hb => hb

theorem pushFront (h : Indexed list (index.erase key)) (hk : key ∉ list.values) :
    Indexed (list.pushFront key) (index.insert key (list.pushFront key).begin) where
  nodup := by simpa using ⟨hk,h.nodup⟩
  mem_iff k := by
    have hm := h.mem_iff k
    rw [AList.mem_erase] at hm
    rw [AList.mem_insert,LinkedList.values_pushFront,List.mem_cons,← hm]
    tauto
  holds k it hit := by
    by_cases hne : k = key
    · subst k
      rw [AList.lookup_insert,Option.some.injEq] at hit
      subst it
      exact LinkedList.holds_pushFront_begin _ _
    · rw [AList.lookup_insert_ne hne] at hit
      exact (h.holds k it (by rwa [AList.lookup_erase_ne hne])).pushFront key

end Indexed

namespace LRUStore

/-- The state holds the reference cache `l`, within its capacity. -/
structure Represents (s : LRUStore) (l : Assoc Bytes Bytes) : Prop where
  indexed : Indexed s.lruList s.index
  keys : s.lruList.values = l.keys
  lookup : ∀ k, s.store.kv.lookup k = l.lookup k
  bounded : RecencyCache.size l ≤ s.capacity

variable {s : LRUStore} {l : Assoc Bytes Bytes}

theorem represents_new (capacity : ℕ) : (new capacity).Represents ∅ where
  indexed := .empty
  keys := rfl
  lookup _ := rfl
  bounded := Nat.zero_le _

namespace Represents

theorem mem_values (h : s.Represents l) (k : Bytes) : k ∈ s.lruList.values ↔ k ∈ l := by
  rw [h.keys,AList.mem_keys]

theorem mem_index (h : s.Represents l) (k : Bytes) : k ∈ s.index ↔ k ∈ l := by
  rw [h.indexed.mem_iff,h.mem_values]

theorem mem_store (h : s.Represents l) (k : Bytes) : k ∈ s.store.kv ↔ k ∈ l := by
  rw [← AList.lookup_isSome,← AList.lookup_isSome,h.lookup]

theorem size_list (h : s.Represents l) : s.lruList.size = RecencyCache.size l := by
  rw [LinkedList.size_eq_length,h.keys,RecencyCache.size_eq_keys_length]

theorem size_store (h : s.Represents l) : RecencyCache.size s.store.kv = RecencyCache.size l := by
  have hperm : s.store.kv.keys.Perm l.keys := by
    rw [List.perm_ext_iff_of_nodup s.store.kv.keys_nodup l.keys_nodup]
    intro k
    rw [← AList.mem_keys,← AList.mem_keys]
    exact h.mem_store k
  rw [RecencyCache.size_eq_keys_length,RecencyCache.size_eq_keys_length,hperm.length_eq]

end Represents

theorem moveToFront_spec (h : s.Represents l) {key : Bytes} (hk : key ∈ l) :
    ∃ s', s.moveToFront key = .ok s' ∧ s'.capacity = s.capacity ∧ s'.store = s.store ∧
      s'.lruList.values = key :: l.keys.filter (fun k => decide (k ≠ key)) ∧
      Indexed s'.lruList s'.index := by
  have hmem : key ∈ s.lruList.values := (h.mem_values key).mpr hk
  obtain ⟨it,hsub,hit⟩ := h.indexed.subscript hmem
  obtain ⟨list',hl,hv,hi⟩ := h.indexed.erase hit
  have hnot : key ∉ list'.values := by simp [hv]
  let s' : LRUStore := { s with
    lruList := list'.pushFront key
    index := s.index.insert key (list'.pushFront key).begin }
  have hs : s.moveToFront key = .ok s' := by
    simp only [moveToFront,hsub,hl,except_bind_ok,except_pure,s']
  have hvals : s'.lruList.values = key :: l.keys.filter (fun k => decide (k ≠ key)) := by
    rw [← h.keys,← hv]
    rfl
  exact ⟨s',hs,rfl,rfl,hvals,hi.pushFront hnot⟩

theorem lookup_remove_store (h : s.Represents l) (key k : Bytes) :
    (s.store.remove key).1.kv.lookup k = (l.erase key).lookup k := by
  change (s.store.kv.erase key).lookup k = _
  by_cases hk : k = key
  · subst k
    simp
  · rw [AList.lookup_erase_ne hk,AList.lookup_erase_ne hk,h.lookup]

theorem lookup_put_store (h : ∀ k, s.store.kv.lookup k = l.lookup k) (key value k : Bytes) :
    (s.store.put key value).kv.lookup k = (l.insert key value).lookup k := by
  change (s.store.kv.insert key value).lookup k = _
  by_cases hk : k = key
  · subst k
    simp
  · rw [AList.lookup_insert_ne hk,AList.lookup_insert_ne hk,h]

theorem evict_spec (h : s.Represents l) (hl : l.entries ≠ []) :
    ∃ s', s.evict = .ok s' ∧ s'.capacity = s.capacity ∧
      s'.Represents (RecencyCache.evict l) := by
  have hkeys : l.keys = (RecencyCache.evict l).keys ++ [(l.entries.getLast hl).1] := by
    have hmap := congrArg (List.map Sigma.fst) (List.dropLast_append_getLast hl)
    rw [List.map_append] at hmap
    exact hmap.symm
  have hv := h.keys.trans hkeys
  have hback := LinkedList.back_spec hv
  obtain ⟨list',hp,hv',hi⟩ := h.indexed.popBack hv
  set key := (l.entries.getLast hl).1 with hkey
  have hs : s.evict = .ok { s with
      lruList := list'
      index := s.index.erase key
      store := (s.store.remove key).1 } := by
    simp only [evict,hback,hp,except_bind_ok,except_pure]
  refine ⟨_,hs,rfl,hi,hv',fun k => ?_,?_⟩
  · rw [RecencyCache.evict_eq_erase hl]
    exact lookup_remove_store h key k
  · have hb := h.bounded
    change RecencyCache.size (RecencyCache.evict l) ≤ s.capacity
    rw [RecencyCache.size_evict]
    omega

theorem makeRoom_spec (hc : 1 ≤ s.capacity) (h : s.Represents l) :
    ∃ s', s.makeRoom = .ok s' ∧ s'.capacity = s.capacity ∧
      s'.Represents (RecencyCache.makeRoom s.capacity l) := by
  have hsize := h.size_list
  have hb := h.bounded
  by_cases hfull : RecencyCache.size l = s.capacity
  · have hne : l.entries ≠ [] := by
      intro he
      simp only [RecencyCache.size,he,List.length_nil] at hfull
      omega
    obtain ⟨s',hs,hcap,hr⟩ := evict_spec h hne
    refine ⟨s',by rw [makeRoom,if_pos (by omega),hs],hcap,?_⟩
    rwa [RecencyCache.makeRoom,if_pos hfull]
  · refine ⟨s,by rw [makeRoom,if_neg (by omega)],rfl,?_⟩
    rwa [RecencyCache.makeRoom,if_neg hfull]

theorem insertNew_spec (h : s.Represents l) {key : Bytes} (hk : key ∉ l) (value : Bytes)
    (hroom : RecencyCache.size l < s.capacity) :
    (s.insertNew key value).Represents (l.insert key value) := by
  have hnot : key ∉ s.lruList.values := fun hm => hk ((h.mem_values key).mp hm)
  refine ⟨(h.indexed.erase_of_notMem hnot).pushFront hnot,?_,lookup_put_store h.lookup key value,?_⟩
  · have hf := RecencyCache.filter_ne_self fun hmem => hk (AList.mem_keys.mp hmem)
    rw [RecencyCache.keys_insert,hf,← h.keys]
    rfl
  · rw [RecencyCache.size_insert_of_notMem hk]
    exact hroom

theorem put_spec (hc : 1 ≤ s.capacity) (h : s.Represents l) (key value : Bytes) :
    ∃ s', s.put key value = .ok s' ∧ s'.capacity = s.capacity ∧
      s'.Represents (RecencyCache.put s.capacity key value l) := by
  by_cases hk : key ∈ l
  · obtain ⟨s',hs,hcap,hstore,hv,hi⟩ := moveToFront_spec h hk
    have hput : s.put key value = .ok { s' with store := s'.store.put key value } := by
      rw [put,if_pos ((h.mem_index key).mpr hk),hs]
      rfl
    refine ⟨_,hput,hcap,?_⟩
    rw [RecencyCache.put,if_pos hk]
    refine ⟨hi,?_,?_,?_⟩
    · rw [RecencyCache.keys_insert]
      exact hv
    · refine lookup_put_store ?_ key value
      rw [hstore]
      exact h.lookup
    · rw [RecencyCache.size_insert_of_mem hk]
      exact h.bounded.trans hcap.ge
  · obtain ⟨s',hs,hcap,hr⟩ := makeRoom_spec hc h
    have hput : s.put key value = .ok (s'.insertNew key value) := by
      rw [put,if_neg fun hm => hk ((h.mem_index key).mp hm),hs]
      rfl
    refine ⟨_,hput,hcap,?_⟩
    rw [RecencyCache.put,if_neg hk]
    refine insertNew_spec hr (RecencyCache.notMem_makeRoom hk) value ?_
    rw [hcap]
    exact RecencyCache.size_makeRoom_lt hc h.bounded

theorem get_spec (h : s.Represents l) (key : Bytes) :
    ∃ s', s.get key = .ok (s',(RecencyCache.get key l).2) ∧ s'.capacity = s.capacity ∧
      s'.store = s.store ∧ s'.Represents (RecencyCache.get key l).1 := by
  by_cases hk : key ∈ l
  · obtain ⟨v,hv⟩ := Option.isSome_iff_exists.mp (AList.lookup_isSome.mpr hk)
    obtain ⟨s',hs,hcap,hstore,hvals,hi⟩ := moveToFront_spec h hk
    have hex : s.store.exists key = true := decide_eq_true ((h.mem_store key).mpr hk)
    have hget : s.get key = .ok (s',some v) := by
      rw [get,if_pos hex,hs]
      simp only [except_bind_ok,except_pure,HashStore.get,hstore,h.lookup,hv]
    have hr : RecencyCache.get key l = (l.insert key v,some v) := by
      simp only [RecencyCache.get,hv]
    refine ⟨s',by rw [hget,hr],hcap,hstore,?_⟩
    rw [hr]
    refine ⟨hi,?_,fun k => ?_,?_⟩
    · rw [RecencyCache.keys_insert]
      exact hvals
    · have hl := RecencyCache.lookup_get key k l
      rw [hr] at hl
      rw [hstore,h.lookup,hl]
    · rw [RecencyCache.size_insert_of_mem hk]
      exact h.bounded.trans hcap.ge
  · have hnone := AList.lookup_eq_none.mpr hk
    have hex : ¬ s.store.exists key = true := fun hd =>
      hk ((h.mem_store key).mp (of_decide_eq_true hd))
    have hr : RecencyCache.get key l = (l,none) := by
      simp only [RecencyCache.get,hnone]
    exact ⟨s,by rw [get,if_neg hex,hr]; rfl,rfl,rfl,hr ▸ h⟩

theorem remove_spec (h : s.Represents l) (key : Bytes) :
    ∃ s', s.remove key = .ok (s',(RecencyCache.remove key l).2) ∧ s'.capacity = s.capacity ∧
      s'.Represents (RecencyCache.remove key l).1 := by
  have hb := (RecencyCache.size_remove_le key l).trans h.bounded
  by_cases hk : key ∈ l
  · obtain ⟨it,hsub,hit⟩ := h.indexed.subscript ((h.mem_values key).mpr hk)
    obtain ⟨list',hl,hv,hi⟩ := h.indexed.erase hit
    have hmem := (h.mem_store key).mpr hk
    have hex : s.store.exists key = true := decide_eq_true hmem
    let s' : LRUStore := { s with
      lruList := list', index := s.index.erase key, store := (s.store.remove key).1 }
    have hs : s.remove key = .ok (s',true) := by
      rw [remove,if_pos hex]
      simp only [hsub,hl,except_bind_ok,except_pure,HashStore.remove,hmem,decide_true,s']
    refine ⟨s',by simp [hs,RecencyCache.remove,hk],rfl,hi,?_,lookup_remove_store h key,hb⟩
    rw [RecencyCache.remove,RecencyCache.keys_erase,← h.keys]
    exact hv
  · have hex : ¬ s.store.exists key = true := fun hd =>
      hk ((h.mem_store key).mp (of_decide_eq_true hd))
    have hl : (RecencyCache.remove key l).1 = l := by
      apply AList.ext
      exact List.kerase_of_notMem_keys hk
    refine ⟨s,by simp [remove,hex,RecencyCache.remove,hk],rfl,?_⟩
    rwa [hl]

theorem putEach_spec (es : List (Σ _ : Bytes, Bytes)) (hc : 1 ≤ s.capacity)
    (h : s.Represents l) :
    ∃ s', putEach es s = .ok s' ∧ s'.capacity = s.capacity ∧
      s'.Represents (RecencyCache.putAll s.capacity es l) := by
  induction es generalizing s l with
  | nil => exact ⟨s,rfl,rfl,h⟩
  | cons e es ih =>
    obtain ⟨s₁,hs₁,hc₁,h₁⟩ := put_spec hc h e.1 e.2
    obtain ⟨s₂,hs₂,hc₂,h₂⟩ := ih (hc₁ ▸ hc) h₁
    refine ⟨s₂,by simp only [putEach,hs₁,except_bind_ok,hs₂],hc₂.trans hc₁,?_⟩
    rwa [hc₁] at h₂

/-- Every operation of a store with room answers as the reference does. -/
theorem simulates {capacity : ℕ} (hc : 1 ≤ capacity) :
    Refinement.Simulates step (RecencyCache.step capacity)
      (fun s l => s.capacity = capacity ∧ s.Represents l) := by
  rintro op s l ⟨rfl,h⟩
  cases op with
  | put k v =>
    obtain ⟨s',hs,hcap,hr⟩ := put_spec hc h k v
    exact ⟨s',by simp [step,hs,RecencyCache.step],hcap,hr⟩
  | get k =>
    obtain ⟨s',hs,hcap,_,hr⟩ := get_spec h k
    exact ⟨s',by simp [step,hs,RecencyCache.step],hcap,hr⟩
  | remove k =>
    obtain ⟨s',hs,hcap,hr⟩ := remove_spec h k
    exact ⟨s',by simp [step,hs,RecencyCache.step],hcap,hr⟩
  | getKvBatch =>
    have hbatch : s.getKvBatch.toFinmap = l.toFinmap := by
      apply Finmap.ext_lookup
      intro k
      rw [Finmap.lookup_toFinmap,Finmap.lookup_toFinmap]
      exact h.lookup k
    exact ⟨s,by simp [step,hbatch,RecencyCache.step],rfl,h⟩
  | setKvBatch m =>
    obtain ⟨s',hs,hcap,hr⟩ := putEach_spec m.entries hc h
    exact ⟨s',by simp [step,setKvBatch,hs,RecencyCache.step],hcap,hr⟩

/-- A run of the store with room never faults, gives the answers of the reference and ends
in a state that represents it. -/
theorem run_spec {capacity : ℕ} (hc : 1 ≤ capacity) (ops : List (Op Bytes Bytes)) :
    ∃ s, Refinement.runAll step ops (new capacity) =
        .ok (s,(Refinement.specAll (RecencyCache.step capacity) ops ∅).2) ∧
      s.capacity = capacity ∧
      s.Represents (Refinement.specAll (RecencyCache.step capacity) ops ∅).1 := by
  obtain ⟨s,hs,hcap,hr⟩ := (simulates hc).runAll ops ⟨rfl,represents_new capacity⟩
  exact ⟨s,hs,hcap,hr⟩

/-- For every capacity and every sequence of operations the store never faults and its
answers are those of the reference cache. -/
theorem answers_eq_reference {capacity : ℕ} (hc : 1 ≤ capacity) (ops : List (Op Bytes Bytes)) :
    ∃ s, Refinement.runAll step ops (new capacity) =
      .ok (s,(Refinement.specAll (RecencyCache.step capacity) ops ∅).2) := by
  obtain ⟨s,hs,_⟩ := run_spec hc ops
  exact ⟨s,hs⟩

/-- A store of capacity two after reading the older of its two keys evicts the other one. -/
theorem answers_eq_reference_two :
    ∃ s, Refinement.runAll step [.put [1] [10],.put [2] [20],.get [1],.put [3] [30],.get [2]]
      (new 2) = .ok (s,(Refinement.specAll (RecencyCache.step 2)
        [.put [1] [10],.put [2] [20],.get [1],.put [3] [30],.get [2]] ∅).2) :=
  answers_eq_reference (by decide) _

/-- What holds of the three structures of a store between two operations. -/
structure WellFormed (s : LRUStore) : Prop where
  nodup : s.lruList.values.Nodup
  list_index : ∀ k, k ∈ s.lruList.values ↔ k ∈ s.index
  list_store : ∀ k, k ∈ s.lruList.values ↔ k ∈ s.store.kv
  index_node : ∀ k it, s.index.lookup k = some it → s.lruList.Live it ∧ s.lruList.Holds it k
  bounded : s.lruList.size ≤ s.capacity

theorem Represents.wellFormed (h : s.Represents l) : s.WellFormed where
  nodup := h.indexed.nodup
  list_index k := (h.indexed.mem_iff k).symm
  list_store k := by rw [h.mem_values,h.mem_store]
  index_node k it hk := ⟨(h.indexed.holds k it hk).live,h.indexed.holds k it hk⟩
  bounded := h.size_list.trans_le h.bounded

theorem WellFormed.subscript (h : s.WellFormed) {key : Bytes}
    (hk : key ∈ s.index ∨ s.store.exists key = true) :
    ∃ it, s.index.subscript none key = (it,s.index) ∧ s.lruList.Live it := by
  have hmem : key ∈ s.index := by
    rcases hk with hk | hk
    · exact hk
    · exact (h.list_index key).mp ((h.list_store key).mpr (of_decide_eq_true hk))
  obtain ⟨it,hit⟩ := Option.isSome_iff_exists.mp (AList.lookup_isSome.mpr hmem)
  exact ⟨it,by simp [UnorderedMap.subscript,hit],(h.index_node key it hit).1⟩

/-- Every reachable store is well formed, each subscript of its index finds a live
iterator without inserting anything, and no operation on it faults. -/
theorem reachable_wellFormed {capacity : ℕ} (hc : 1 ≤ capacity) {s : LRUStore}
    (hs : Refinement.Reaches step (new capacity) s) :
    s.capacity = capacity ∧ s.WellFormed ∧
      (∀ key, key ∈ s.index ∨ s.store.exists key = true →
        ∃ it, s.index.subscript none key = (it,s.index) ∧ s.lruList.Live it) ∧
      ∀ op, ∃ r, step op s = .ok r := by
  obtain ⟨l,hcap,hl⟩ := (simulates hc).reaches ⟨rfl,represents_new capacity⟩ hs
  refine ⟨hcap,hl.wellFormed,fun key hk => hl.wellFormed.subscript hk,fun op => ?_⟩
  obtain ⟨t,ht,_⟩ := simulates hc op s l ⟨hcap,hl⟩
  exact ⟨_,ht⟩

/-- A store of capacity two that has evicted the second of its three keys. -/
theorem reachable_wellFormed_evicted :
    ∃ s answers, Refinement.runAll step [.put [1] [10],.put [2] [20],.get [1],.put [3] [30]]
        (new 2) = .ok (s,answers) ∧ s.lruList.values = [[3],[1]] ∧
      s.capacity = 2 ∧ s.WellFormed ∧
      (∀ key, key ∈ s.index ∨ s.store.exists key = true →
        ∃ it, s.index.subscript none key = (it,s.index) ∧ s.lruList.Live it) ∧
      ∀ op, ∃ r, step op s = .ok r := by
  obtain ⟨s,hs,_,hr⟩ := run_spec (show 1 ≤ 2 by decide)
    [.put [1] [10],.put [2] [20],.get [1],.put [3] [30]]
  refine ⟨s,_,hs,?_,reachable_wellFormed (by decide) (Refinement.Reaches.start.runAll hs)⟩
  rw [hr.keys]
  decide +kernel

end LRUStore
end Kivi
