import Kivi.Core.LRURefinement
import Kivi.Library.RecencyBatch

/-! What `set_kv_batch` leaves in the store. -/
namespace Kivi

open RecencyCache (Assoc Op overlay)

namespace LRUStore

variable {s s' : LRUStore} {l : Assoc Bytes Bytes} {m m' : UnorderedMap Bytes Bytes}

theorem Represents.get_eq (h : s.Represents l) (k : Bytes) : s.store.get k = l.lookup k := h.lookup k

/-- A batch leaves the closed form of its puts, whatever the order of its entries. -/
theorem setKvBatch_represents (hc : 1 ≤ s.capacity) (h : s.Represents l)
    (m : UnorderedMap Bytes Bytes) :
    ∃ s' l', s.setKvBatch m = .ok s' ∧ s'.capacity = s.capacity ∧ s'.Represents l' ∧
      s'.lruList.values = overlay s.capacity m.keys s.lruList.values ∧
      ∀ k ∈ s'.lruList.values, s'.store.get k = if k ∈ m then m.lookup k else s.store.get k := by
  obtain ⟨s',hs,hcap,hr⟩ := putEach_spec m.entries hc h
  have hkeys : s'.lruList.values = overlay s.capacity m.keys s.lruList.values := by
    rw [hr.keys,h.keys]
    exact RecencyCache.keys_putAll hc h.bounded m.entries m.nodupKeys
  refine ⟨s',_,hs,hcap,hr,hkeys,fun k hk => ?_⟩
  have hmem := (hr.mem_values k).mp hk
  have hvalue := RecencyCache.lookup_putAll_of_mem m l hmem
  rw [hr.get_eq,h.get_eq,hvalue]

theorem Represents.get_congr {t : LRUStore} {l' : Assoc Bytes Bytes} (hs : s.Represents l)
    (ht : t.Represents l') (hkeys : ∀ k, k ∈ t.lruList.values ↔ k ∈ s.lruList.values)
    (hvalues : ∀ k ∈ s.lruList.values, t.store.get k = s.store.get k) (k : Bytes) :
    t.store.get k = s.store.get k := by
  by_cases hk : k ∈ s.lruList.values
  · exact hvalues k hk
  · have hnone : s.store.get k = none := by
      rw [hs.get_eq,AList.lookup_eq_none,← hs.mem_values]
      exact hk
    have hnone' : t.store.get k = none := by
      rw [ht.get_eq,AList.lookup_eq_none,← ht.mem_values,hkeys]
      exact hk
    rw [hnone,hnone']

theorem setKvBatch_perm (hc : 1 ≤ s.capacity) (h : s.Represents l)
    (hs' : s.setKvBatch m = .ok s') (hle : m.keys.length ≤ s.capacity)
    (hm : m'.toFinmap = m.toFinmap) :
    ∃ t, s.setKvBatch m' = .ok t ∧ ∀ k, t.store.get k = s'.store.get k := by
  obtain ⟨s₁,l',hs₁,_,hr,hkeys,hvalues⟩ := setKvBatch_represents hc h m
  obtain rfl : s' = s₁ := Except.ok.inj (hs'.symm.trans hs₁)
  obtain ⟨t,lt,ht,_,hrt,hkeyst,hvaluest⟩ := setKvBatch_represents hc h m'
  have hp : m'.keys.Perm m.keys := (AList.toFinmap_eq.mp hm).map Sigma.fst
  have hlookup : ∀ k, m'.lookup k = m.lookup k := fun k => by
    rw [← Finmap.lookup_toFinmap,hm,Finmap.lookup_toFinmap]
  have hmem : ∀ k, k ∈ m' ↔ k ∈ m := fun k => by
    rw [AList.mem_keys,AList.mem_keys,hp.mem_iff]
  have hsame : ∀ k, k ∈ t.lruList.values ↔ k ∈ s'.lruList.values := fun k => by
    rw [hkeyst,hkeys]
    exact RecencyCache.mem_overlay_perm hp hle
  refine ⟨t,ht,hr.get_congr hrt hsame fun k hk => ?_⟩
  rw [hvaluest k ((hsame k).mpr hk),hvalues k hk,hlookup]
  simp only [hmem]

theorem setKvBatch_again (hc : 1 ≤ s.capacity) (h : s.Represents l)
    (hs' : s.setKvBatch m = .ok s') :
    ∃ t, s'.setKvBatch m = .ok t ∧ t.lruList.values = s'.lruList.values ∧
      ∀ k, t.store.get k = s'.store.get k := by
  obtain ⟨s₁,l',hs₁,hcap,hr,hkeys,hvalues⟩ := setKvBatch_represents hc h m
  obtain rfl : s' = s₁ := Except.ok.inj (hs'.symm.trans hs₁)
  obtain ⟨t,lt,ht,_,hrt,hkeyst,hvaluest⟩ := setKvBatch_represents (hcap ▸ hc) hr m
  have hsame : t.lruList.values = s'.lruList.values := by
    rw [hkeyst,hcap,hkeys]
    exact RecencyCache.overlay_overlay s.capacity m.keys s.lruList.values
  refine ⟨t,ht,hsame,hr.get_congr hrt (fun k => by rw [hsame]) fun k hk => ?_⟩
  rw [hvaluest k (by rwa [hsame]),hvalues k hk]
  by_cases hm : k ∈ m
  · rw [if_pos hm,if_pos hm]
  · rw [if_neg hm]

/-- After a batch the list holds the keys of the batch in front, the last one first, then
the other keys in their order, cut at the capacity. A batch that fits is there as a whole,
in whatever order it came, and applying it again changes nothing. -/
theorem setKvBatch_spec {capacity : ℕ} (hc : 1 ≤ capacity) :
    (∀ s, Refinement.Reaches step (new capacity) s → s.getKvBatch.keys.length ≤ capacity) ∧
    ∀ s, Refinement.Reaches step (new capacity) s → ∀ m : UnorderedMap Bytes Bytes,
      ∃ s', s.setKvBatch m = .ok s' ∧
        s'.lruList.values =
          (m.keys.reverse ++ s.lruList.values.filter fun k => decide (k ∉ m)).take capacity ∧
        (∀ k ∈ s'.lruList.values,
          s'.store.get k = if k ∈ m then m.lookup k else s.store.get k) ∧
        (m.keys.length ≤ capacity →
          (∀ k v, m.lookup k = some v → s'.store.get k = some v) ∧
          (∀ m' : UnorderedMap Bytes Bytes, m'.toFinmap = m.toFinmap →
            ∃ t, s.setKvBatch m' = .ok t ∧ ∀ k, t.store.get k = s'.store.get k) ∧
          (∀ newer older, [newer,older].Sublist s.lruList.values → newer ∉ m → older ∉ m →
            older ∈ s'.lruList.values → newer ∈ s'.lruList.values) ∧
          ∃ t, s'.setKvBatch m = .ok t ∧ t.lruList.values = s'.lruList.values ∧
            ∀ k, t.store.get k = s'.store.get k) := by
  have hreach : ∀ s, Refinement.Reaches step (new capacity) s →
      ∃ l, s.capacity = capacity ∧ s.Represents l := fun s hs =>
    (simulates hc).reaches ⟨rfl,represents_new capacity⟩ hs
  refine ⟨fun s hs => ?_,fun s hs m => ?_⟩
  · obtain ⟨l,rfl,h⟩ := hreach s hs
    have hsize := h.size_store
    rw [RecencyCache.size_eq_keys_length] at hsize
    exact hsize.trans_le h.bounded
  obtain ⟨l,rfl,h⟩ := hreach s hs
  have hnodup : s.lruList.values.Nodup := h.indexed.nodup
  obtain ⟨s',_,hs',_,_,hkeys,hvalues⟩ := setKvBatch_represents hc h m
  have hclosed := hkeys.trans (RecencyCache.overlay_keys s.capacity m s.lruList.values)
  refine ⟨s',hs',hclosed,hvalues,fun hle => ⟨fun k v hk => ?_,fun m' hm => ?_,?_,?_⟩⟩
  · have hm : k ∈ m := AList.lookup_isSome.mp (by simp [hk])
    have hkept : k ∈ s'.lruList.values := by
      rw [hkeys]
      exact RecencyCache.mem_overlay_of_room hle (AList.mem_keys.mp hm)
    rw [hvalues k hkept,if_pos hm,hk]
  · exact setKvBatch_perm hc h hs' hle hm
  · intro newer older horder hnewer holder hkept
    rw [hkeys] at hkept ⊢
    exact RecencyCache.mem_overlay_of_newer hnodup hle horder (fun hm => hnewer (AList.mem_keys.mpr hm))
      (fun hm => holder (AList.mem_keys.mpr hm)) hkept
  · exact setKvBatch_again hc h hs'

/-- Two entries into a store of two that holds another key. -/
theorem setKvBatch_spec_two :
    ∃ s s' t, step (.put [9] [90]) (new 2) = .ok (s,.done) ∧
      s.setKvBatch ((AList.singleton [2] [20]).insert [1] [10]) = .ok s' ∧
      s'.lruList.values = [[2],[1]] ∧ s'.store.get [1] = some [10] ∧
      s'.setKvBatch ((AList.singleton [2] [20]).insert [1] [10]) = .ok t ∧
      t.lruList.values = s'.lruList.values := by
  obtain ⟨s,hs,_,hr⟩ := put_spec (s:=new 2) (by decide) (represents_new 2) [9] [90]
  have hstep : step (.put [9] [90]) (new 2) = .ok (s,.done) := by
    simp only [step,hs,except_bind_ok,except_pure]
  have hlist : s.lruList.values = [[9]] := hr.keys
  obtain ⟨s',hs',hkeys,_,hfits⟩ := (setKvBatch_spec (by decide)).2 s (.next .start hstep)
    ((AList.singleton [2] [20]).insert [1] [10])
  obtain ⟨hpresent,_,_,t,ht,hsame,_⟩ := hfits (by decide)
  rw [hlist] at hkeys
  exact ⟨s,s',t,hstep,hs',hkeys,hpresent [1] [10] (by decide),ht,hsame⟩

end LRUStore
end Kivi
