import Kivi.Library.RecencyCache
import Kivi.Library.Refinement

/-! Two caches of different capacities that answer the same operations: the entries of the
smaller one are, in order, among those of the larger one. The order of neighbours may differ,
since a get that only the larger one hits reorders that one alone. -/
namespace Kivi
namespace RecencyCache

variable {κ ν : Type*} {small large : ℕ} {l l' : Assoc κ ν}

/-- The smaller cache is a subsequence of the larger one and lacks at most as many entries
as its capacity is smaller. -/
structure Included (small large : ℕ) (l l' : Assoc κ ν) : Prop where
  sublist : l.entries.Sublist l'.entries
  bounded : size l ≤ small
  bounded' : size l' ≤ large
  lag : size l'+small ≤ size l+large

def Submap (m m' : Table κ ν) [DecidableEq κ] : Prop :=
  ∀ k v, m.lookup k = some v → m'.lookup k = some v

/-- What the larger cache may answer where the smaller one gives the first answer. -/
def Answer.Below [DecidableEq κ] : Answer κ ν → Answer κ ν → Prop
  | .done, b => b = .done
  | .value v, b => ∃ w, b = .value w ∧ ∀ x, v = some x → w = some x
  | .removed r, b => ∃ r', b = .removed r' ∧ (r = true → r' = true)
  | .batch m, b => ∃ m', b = .batch m' ∧ Submap m m'

theorem dropLast_sublist_dropLast {α : Type*} {xs ys : List α} (h : xs.Sublist ys) :
    xs.dropLast.Sublist ys.dropLast := by
  simpa using h.reverse.tail.reverse

theorem entries_makeRoom (capacity : ℕ) (l : Assoc κ ν) :
    (makeRoom capacity l).entries.Sublist l.entries := by
  unfold makeRoom
  split
  · exact List.dropLast_sublist _
  · exact List.Sublist.refl _

theorem size_makeRoom (capacity : ℕ) (l : Assoc κ ν) :
    size (makeRoom capacity l) = if size l = capacity then size l-1 else size l := by
  unfold makeRoom
  split
  · exact size_evict l
  · rfl

theorem size_erase [DecidableEq κ] (k : κ) (l : Assoc κ ν) :
    size (l.erase k) = if k ∈ l then size l-1 else size l := by
  simp only [size_eq_keys_length,AList.keys_erase,List.length_erase,AList.mem_keys]

theorem size_pos {k : κ} (hk : k ∈ l) : 0 < size l := by
  rw [size_eq_keys_length]
  exact List.length_pos_of_mem (AList.mem_keys.mp hk)

namespace Included

theorem empty (h : small ≤ large) : Included small large (∅ : Assoc κ ν) ∅ where
  sublist := List.Sublist.refl _
  bounded := Nat.zero_le _
  bounded' := Nat.zero_le _
  lag := by simpa using h

theorem le (h : Included small large l l') : small ≤ large := by
  have hlag := h.lag
  have hlength : size l ≤ size l' := h.sublist.length_le
  omega

theorem makeRoom (h : Included small large l l') :
    (makeRoom small l).entries.Sublist (makeRoom large l').entries := by
  have hlag := h.lag
  have hbound := h.bounded
  unfold RecencyCache.makeRoom
  by_cases hl' : size l' = large
  · have hl : size l = small := by omega
    rw [if_pos hl,if_pos hl']
    exact dropLast_sublist_dropLast h.sublist
  · rw [if_neg hl']
    exact (entries_makeRoom small l).trans h.sublist

theorem makeRoom_lag (h : Included small large l l') :
    size (RecencyCache.makeRoom large l')+small ≤ size (RecencyCache.makeRoom small l)+large := by
  have hlag := h.lag
  have hbound := h.bounded
  have hbound' := h.bounded'
  have hle := h.le
  rw [size_makeRoom,size_makeRoom]
  split_ifs <;> omega

variable [DecidableEq κ]

theorem lookup (h : Included small large l l') {k : κ} {v : ν} (hk : l.lookup k = some v) :
    l'.lookup k = some v :=
  List.mem_dlookup l'.nodupKeys (h.sublist.subset (List.of_mem_dlookup hk))

theorem mem (h : Included small large l l') {k : κ} (hk : k ∈ l) : k ∈ l' := by
  obtain ⟨v,hv⟩ := Option.isSome_iff_exists.mp (AList.lookup_isSome.mpr hk)
  rw [← AList.lookup_isSome,h.lookup hv]
  rfl

theorem submap (h : Included small large l l') : Submap l.toFinmap l'.toFinmap := by
  intro k v hv
  rw [Finmap.lookup_toFinmap] at hv ⊢
  exact h.lookup hv

theorem insert_both (h : Included small large l l') {k : κ} (hk : k ∈ l) (v : ν) :
    Included small large (l.insert k v) (l'.insert k v) := by
  have hk' := h.mem hk
  have hsize := size_insert_of_mem (v:=v) hk
  have hsize' := size_insert_of_mem (v:=v) hk'
  have hlag := h.lag
  refine ⟨?_,hsize.trans_le h.bounded,hsize'.trans_le h.bounded',by omega⟩
  rw [AList.entries_insert,AList.entries_insert]
  exact h.sublist.eraseP.cons_cons _

theorem put (h : Included small large l l') (hs : 1 ≤ small) (k : κ) (v : ν) :
    Included small large (put small k v l) (put large k v l') := by
  have hbound := h.bounded
  have hbound' := h.bounded'
  have hlag := h.lag
  by_cases hk : k ∈ l
  · have hk' := h.mem hk
    rw [RecencyCache.put,RecencyCache.put,if_pos hk,if_pos hk']
    exact h.insert_both hk v
  · have hnot : k ∉ RecencyCache.makeRoom small l := notMem_makeRoom hk
    have hnew := size_insert_of_notMem (v:=v) hnot
    have hroom := size_makeRoom_lt hs hbound
    have hsize := size_makeRoom small l
    by_cases hk' : k ∈ l'
    · have hold := size_insert_of_mem (v:=v) hk'
      rw [RecencyCache.put,RecencyCache.put,if_neg hk,if_pos hk']
      refine ⟨?_,by omega,by omega,?_⟩
      · rw [AList.entries_insert,AList.entries_insert]
        exact ((entries_makeRoom small l).trans h.sublist).eraseP.cons_cons _
      · split_ifs at hsize <;> omega
    · have hnot' : k ∉ RecencyCache.makeRoom large l' := notMem_makeRoom hk'
      have hnew' := size_insert_of_notMem (v:=v) hnot'
      have hle := h.sublist.length_le
      have hroom' := size_makeRoom_lt (hs.trans h.le) hbound'
      have hrooms := h.makeRoom_lag
      rw [RecencyCache.put,RecencyCache.put,if_neg hk,if_neg hk']
      refine ⟨?_,by omega,by omega,by omega⟩
      rw [AList.entries_insert,AList.entries_insert]
      exact h.makeRoom.eraseP.cons_cons _

theorem putAll (hs : 1 ≤ small) (es : List (Σ _ : κ, ν)) (h : Included small large l l') :
    Included small large (putAll small es l) (putAll large es l') := by
  induction es generalizing l l' with
  | nil => exact h
  | cons e es ih => exact ih (h.put hs e.1 e.2)

/-- A hit of the smaller cache is a hit of the larger one; a hit of the larger one alone
moves an entry that the smaller one does not have. -/
theorem get (h : Included small large l l') (k : κ) :
    Included small large (get k l).1 (get k l').1 := by
  by_cases hk : k ∈ l
  · obtain ⟨v,hv⟩ := Option.isSome_iff_exists.mp (AList.lookup_isSome.mpr hk)
    simp only [RecencyCache.get,hv,h.lookup hv]
    exact h.insert_both hk v
  · have hnone := AList.lookup_eq_none.mpr hk
    cases hv' : l'.lookup k with
    | none => simpa only [RecencyCache.get,hnone,hv'] using h
    | some v =>
      have hk' : k ∈ l' := AList.lookup_isSome.mp (by rw [hv']; rfl)
      have hsize' := size_insert_of_mem (v:=v) hk'
      have hlag := h.lag
      have hbound' := h.bounded'
      simp only [RecencyCache.get,hnone,hv']
      refine ⟨?_,h.bounded,by omega,by omega⟩
      have hkeep : l.entries.kerase k = l.entries := List.kerase_of_notMem_keys hk
      rw [AList.entries_insert,← hkeep]
      exact h.sublist.eraseP.cons _

theorem remove (h : Included small large l l') (k : κ) :
    Included small large (remove k l).1 (remove k l').1 := by
  have hsize := size_erase k l
  have hsize' := size_erase k l'
  have hmem := h.mem (k:=k)
  have hlag := h.lag
  have hbound := h.bounded
  have hbound' := h.bounded'
  refine ⟨h.sublist.eraseP,?_,?_,?_⟩
  · exact (size_remove_le k l).trans hbound
  · exact (size_remove_le k l').trans hbound'
  · simp only [RecencyCache.remove]
    by_cases hk : k ∈ l
    · rw [if_pos hk] at hsize
      rw [if_pos (hmem hk)] at hsize'
      have hpos := size_pos hk
      have hpos' := size_pos (hmem hk)
      omega
    · have hle := size_remove_le k l'
      rw [if_neg hk] at hsize
      simp only [RecencyCache.remove] at hle
      omega

theorem step (h : Included small large l l') (hs : 1 ≤ small) (op : Op κ ν) :
    Included small large (step small op l).1 (step large op l').1 ∧
      (step small op l).2.Below (step large op l').2 := by
  cases op with
  | put k v => exact ⟨h.put hs k v,rfl⟩
  | get k =>
    have hbelow : ∀ v, l.lookup k = some v → l'.lookup k = some v := fun v => h.lookup
    refine ⟨h.get k,(RecencyCache.get k l').2,rfl,?_⟩
    simpa only [get_answer] using hbelow
  | remove k =>
    have hbelow : k ∈ l → k ∈ l' := h.mem
    exact ⟨h.remove k,_,rfl,by simpa [RecencyCache.remove] using hbelow⟩
  | getKvBatch => exact ⟨h,l'.toFinmap,rfl,h.submap⟩
  | setKvBatch m => exact ⟨putAll hs m.entries h,rfl⟩

end Included

variable [DecidableEq κ]

/-- The smaller of two caches started empty stays included in the larger one, and so do
its answers. -/
theorem included_of_run (hs : 1 ≤ small) (hle : small ≤ large) (ops : List (Op κ ν)) :
    Included small large (Refinement.specAll (step small) ops ∅).1
        (Refinement.specAll (step large) ops ∅).1 ∧
      List.Forall₂ Answer.Below (Refinement.specAll (step small) ops (∅ : Assoc κ ν)).2
        (Refinement.specAll (step large) ops ∅).2 :=
  Refinement.specAll_related (fun op _ _ h => h.step hs op) ops (Included.empty hle)

end RecencyCache
end Kivi
