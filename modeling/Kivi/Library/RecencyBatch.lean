import Kivi.Library.RecencyTrace

/-! What a batch of puts leaves of a cache. The evictions in the middle of the batch cancel
out: truncating a list of keys commutes with moving a key to its front. -/
namespace Kivi
namespace RecencyCache

section Keys

variable {κ : Type*} {capacity : ℕ} {k : κ} {keys batch : List κ}

theorem mem_take_of_newer {newer older : κ} {n : ℕ} (hd : keys.Nodup)
    (horder : [newer,older].Sublist keys) (hkept : older ∈ keys.take n) :
    newer ∈ keys.take n := by
  rw [← List.take_append_drop n keys] at horder hd
  obtain ⟨front,back,hsplit,hfront,hback⟩ := List.sublist_append_iff.mp horder
  cases front with
  | nil =>
    -- the pair would lie behind the cut, and its second key before it
    have hpair : [newer,older] = back := hsplit
    have holder : older ∈ keys.drop n := hback.subset (by simp [← hpair])
    exact ((List.nodup_append.mp hd).2.2 older hkept older holder rfl).elim
  | cons i front =>
    have hi : newer = i := (List.cons.inj hsplit).1
    exact hfront.subset (by simp [hi])

variable [DecidableEq κ]

/-- The keys after a batch, the last key of the batch first. -/
def overlay (capacity : ℕ) (batch keys : List κ) : List κ :=
  (batch.reverse ++ keys.filter fun j => decide (j ∉ batch)).take capacity

theorem take_filter_ne (hd : keys.Nodup) (n : ℕ) :
    ((keys.take (n+1)).filter fun j => decide (j ≠ k)).take n =
      (keys.filter fun j => decide (j ≠ k)).take n := by
  induction keys generalizing n with
  | nil => simp
  | cons i keys ih =>
    have hi := List.nodup_cons.mp hd
    by_cases hik : i = k
    · subst i
      have hprefix : k ∉ keys.take n := fun h => hi.1 (List.mem_of_mem_take h)
      have hleft := filter_ne_self hprefix
      have hright := filter_ne_self hi.1
      rw [List.take_succ_cons,List.filter_cons_of_neg (by simp),List.filter_cons_of_neg (by simp),
        hleft,hright,List.take_take,min_self]
    · cases n with
      | zero => simp
      | succ n =>
        have hrest := ih hi.2 n
        simpa [hik] using hrest

theorem take_cons_filter_take (hc : 1 ≤ capacity) (hd : keys.Nodup) :
    (k :: (keys.take capacity).filter fun j => decide (j ≠ k)).take capacity =
      (k :: keys.filter fun j => decide (j ≠ k)).take capacity := by
  obtain ⟨n,rfl⟩ : ∃ n, capacity = n+1 := ⟨capacity-1,by omega⟩
  have hrest := take_filter_ne (k:=k) hd n
  rw [List.take_succ_cons,List.take_succ_cons,hrest]

theorem length_filter_ne (hk : k ∈ keys) (hd : keys.Nodup) :
    (keys.filter fun j => decide (j ≠ k)).length+1 = keys.length := by
  rw [← erase_eq_filter_ne hd]
  exact List.length_erase_add_one hk

theorem touch_eq_take (hd : keys.Nodup) (hle : keys.length ≤ capacity) (hc : 1 ≤ capacity) :
    touch capacity k keys = (k :: keys.filter fun j => decide (j ≠ k)).take capacity := by
  unfold touch
  by_cases hk : k ∈ keys
  · have hlength := length_filter_ne hk hd
    rw [if_pos (.inl hk),List.take_of_length_le]
    simp only [List.length_cons]
    omega
  · have hself := filter_ne_self hk
    by_cases hroom : keys.length < capacity
    · rw [if_pos (.inr hroom),hself,List.take_of_length_le]
      simp only [List.length_cons]
      omega
    · have hdrop : k ∉ keys.dropLast := fun h => hk (List.mem_of_mem_dropLast h)
      have hfull : capacity = keys.length-1+1 := by omega
      rw [if_neg (by tauto),hself,filter_ne_self hdrop,hfull,List.take_succ_cons,
        List.dropLast_eq_take]

theorem length_overlay_le (capacity : ℕ) (batch keys : List κ) :
    (overlay capacity batch keys).length ≤ capacity := List.length_take_le _ _

theorem nodup_append_filter (hb : batch.Nodup) (hd : keys.Nodup) :
    (batch.reverse ++ keys.filter fun j => decide (j ∉ batch)).Nodup := by
  refine List.nodup_append.mpr ⟨List.nodup_reverse.mpr hb,hd.filter _,fun i hi j hj => ?_⟩
  have hij := (List.mem_filter.mp hj).2
  rintro rfl
  simp_all

theorem nodup_overlay (hb : batch.Nodup) (hd : keys.Nodup) :
    (overlay capacity batch keys).Nodup := (nodup_append_filter hb hd).sublist (List.take_sublist _ _)

theorem touch_overlay (hc : 1 ≤ capacity) (hb : (batch ++ [k]).Nodup) (hd : keys.Nodup) :
    touch capacity k (overlay capacity batch keys) = overlay capacity (batch ++ [k]) keys := by
  have hbatch : batch.Nodup := hb.sublist (List.sublist_append_left _ _)
  have hk : k ∉ batch.reverse := by
    have hnot := (List.nodup_append.mp hb).2.2
    intro h
    exact hnot k (List.mem_reverse.mp h) k (by simp) rfl
  have hall := nodup_append_filter hbatch hd
  have hfilter : (keys.filter fun j => decide (j ∉ batch)).filter (fun j => decide (j ≠ k)) =
      keys.filter fun j => decide (j ∉ batch ++ [k]) := by
    rw [List.filter_filter]
    apply List.filter_congr
    intro j _
    by_cases h : j = k <;> simp [h]
  calc touch capacity k (overlay capacity batch keys)
      = (k :: (overlay capacity batch keys).filter fun j => decide (j ≠ k)).take capacity :=
        touch_eq_take (nodup_overlay hbatch hd) (length_overlay_le _ _ _) hc
    _ = (k :: (batch.reverse ++ keys.filter fun j => decide (j ∉ batch)).filter
          fun j => decide (j ≠ k)).take capacity := take_cons_filter_take hc hall
    _ = overlay capacity (batch ++ [k]) keys := by
        rw [List.filter_append,filter_ne_self hk,hfilter,overlay,List.reverse_append]
        rfl

theorem mem_overlay_of_room (hle : batch.length ≤ capacity) (hk : k ∈ batch) :
    k ∈ overlay capacity batch keys := by
  rw [overlay,List.take_append,List.take_of_length_le (by simpa using hle)]
  exact List.mem_append_left _ (List.mem_reverse.mpr hk)

/-- With room for the whole batch the other keys are kept from the most recent one on. -/
theorem overlay_of_room (hle : batch.length ≤ capacity) :
    overlay capacity batch keys = batch.reverse ++
      (keys.filter fun j => decide (j ∉ batch)).take (capacity-batch.length) := by
  rw [overlay,List.take_append,List.take_of_length_le (by simpa using hle),List.length_reverse]

theorem mem_overlay_iff (hle : batch.length ≤ capacity) (hk : k ∉ batch) :
    k ∈ overlay capacity batch keys ↔
      k ∈ (keys.filter fun j => decide (j ∉ batch)).take (capacity-batch.length) := by
  rw [overlay_of_room hle,List.mem_append,List.mem_reverse]
  exact or_iff_right hk

theorem mem_overlay_perm {batch' : List κ} (hp : batch'.Perm batch)
    (hle : batch.length ≤ capacity) :
    k ∈ overlay capacity batch' keys ↔ k ∈ overlay capacity batch keys := by
  have hlength := hp.length_eq
  have hfilter : (keys.filter fun j => decide (j ∉ batch')) =
      keys.filter fun j => decide (j ∉ batch) := by
    apply List.filter_congr
    intro j _
    simp only [hp.mem_iff]
  rw [overlay_of_room hle,overlay_of_room (hlength.trans_le hle),hfilter,hlength,List.mem_append,
    List.mem_append,List.mem_reverse,List.mem_reverse,hp.mem_iff]

theorem mem_overlay_of_newer {newer older : κ} (hd : keys.Nodup) (hle : batch.length ≤ capacity)
    (horder : [newer,older].Sublist keys) (hnewer : newer ∉ batch) (holder : older ∉ batch)
    (hkept : older ∈ overlay capacity batch keys) : newer ∈ overlay capacity batch keys := by
  rw [mem_overlay_iff hle hnewer]
  rw [mem_overlay_iff hle holder] at hkept
  have hpair := horder.filter fun j => decide (j ∉ batch)
  have hrest := hd.filter fun j => decide (j ∉ batch)
  exact mem_take_of_newer hrest (by simpa [hnewer,holder] using hpair) hkept

/-- Applying a batch again changes nothing. -/
theorem overlay_overlay (capacity : ℕ) (batch keys : List κ) :
    overlay capacity batch (overlay capacity batch keys) = overlay capacity batch keys := by
  have hsplit : overlay capacity batch keys = batch.reverse.take capacity ++
      (keys.filter fun j => decide (j ∉ batch)).take (capacity-batch.length) := by
    rw [overlay,List.take_append,List.length_reverse]
  have hnone : (batch.reverse.take capacity).filter (fun j => decide (j ∉ batch)) = [] := by
    rw [List.filter_eq_nil_iff]
    intro j hj
    simpa using List.mem_reverse.mp (List.mem_of_mem_take hj)
  have hall : ((keys.filter fun j => decide (j ∉ batch)).take (capacity-batch.length)).filter
      (fun j => decide (j ∉ batch)) =
        (keys.filter fun j => decide (j ∉ batch)).take (capacity-batch.length) := by
    rw [List.filter_eq_self]
    intro j hj
    exact (List.mem_filter.mp (List.mem_of_mem_take hj)).2
  rw [hsplit,overlay,List.filter_append,hnone,hall,List.nil_append,List.take_append,
    List.length_reverse,List.take_take,min_self]

end Keys

section Batch

variable {κ ν : Type*} [DecidableEq κ] {capacity : ℕ} {k : κ} {v : ν} {l : Assoc κ ν}
  {es : List (Σ _ : κ, ν)}

theorem overlay_keys (capacity : ℕ) (m : Assoc κ ν) (keys : List κ) :
    overlay capacity m.keys keys =
      (m.keys.reverse ++ keys.filter fun j => decide (j ∉ m)).take capacity := by
  have hfilter : (keys.filter fun j => decide (j ∉ m.keys)) =
      keys.filter fun j => decide (j ∉ m) := by
    apply List.filter_congr
    intro j _
    simp only [AList.mem_keys]
  rw [overlay,hfilter]

theorem putAll_append (capacity : ℕ) (es es' : List (Σ _ : κ, ν)) (l : Assoc κ ν) :
    putAll capacity (es ++ es') l = putAll capacity es' (putAll capacity es l) := by
  induction es generalizing l with
  | nil => rfl
  | cons e es ih => exact ih (put capacity e.1 e.2 l)

/-- The keys after a batch: its own ones, the last one first, then the others in their order,
cut at the capacity. -/
theorem keys_putAll (hc : 1 ≤ capacity) (hl : size l ≤ capacity) (es : List (Σ _ : κ, ν))
    (hd : es.NodupKeys) : (putAll capacity es l).keys = overlay capacity es.keys l.keys := by
  rw [size_eq_keys_length] at hl
  induction es using List.reverseRecOn with
  | nil => simpa [putAll,overlay] using (List.take_of_length_le hl).symm
  | append_singleton es e ih =>
    have hkeys : (es ++ [e]).keys = es.keys ++ [e.1] := List.keys_append
    have hd' : (es.keys ++ [e.1]).Nodup := hkeys ▸ hd
    have hbefore := ih (hd'.sublist (List.sublist_append_left _ _))
    have hsize : size (putAll capacity es l) ≤ capacity := by
      rw [size_eq_keys_length,hbefore]
      exact length_overlay_le _ _ _
    calc (putAll capacity (es ++ [e]) l).keys
        = (put capacity e.1 e.2 (putAll capacity es l)).keys := by rw [putAll_append]; rfl
      _ = touch capacity e.1 (overlay capacity es.keys l.keys) := by rw [keys_put hsize,hbefore]
      _ = overlay capacity (es ++ [e]).keys l.keys := by
        rw [touch_overlay hc hd' l.keys_nodup,hkeys]

theorem mem_of_lookup_putAll (h : (putAll capacity es l).lookup k = some v) (hk : k ∈ es.keys) :
    (⟨k,v⟩ : Σ _ : κ, ν) ∈ es := by
  induction es generalizing l with
  | nil => simp at hk
  | cons e es ih =>
    by_cases hrest : k ∈ es.keys
    · exact List.mem_cons_of_mem _ (ih h hrest)
    · have hke : k = e.1 := (List.mem_cons.mp hk).resolve_right hrest
      have hold := (lookup_putAll es h).resolve_left fun hmem => hrest (List.mem_keys_of_mem hmem)
      subst k
      rw [lookup_put_self,Option.some.injEq] at hold
      subst v
      exact List.mem_cons_self

theorem lookup_putAll_of_mem (m l : Assoc κ ν) (hk : k ∈ putAll capacity m.entries l) :
    (putAll capacity m.entries l).lookup k = if k ∈ m then m.lookup k else l.lookup k := by
  obtain ⟨v,hv⟩ := Option.isSome_iff_exists.mp (AList.lookup_isSome.mpr hk)
  rw [hv]
  by_cases hm : k ∈ m
  · have hmem := mem_of_lookup_putAll hv hm
    rw [if_pos hm]
    exact (List.mem_dlookup m.nodupKeys hmem).symm
  · have hold := (lookup_putAll m.entries hv).resolve_left fun hmem =>
      hm (List.mem_keys_of_mem hmem)
    rw [if_neg hm,hold]

theorem lookup_putAll_of_room (hc : 1 ≤ capacity) (hl : size l ≤ capacity) {m : Assoc κ ν}
    (hm : size m ≤ capacity) (hk : m.lookup k = some v) :
    (putAll capacity m.entries l).lookup k = some v := by
  have hmem : k ∈ m := AList.lookup_isSome.mp (by simp [hk])
  have hkept : k ∈ putAll capacity m.entries l := by
    apply AList.mem_keys.mpr
    rw [keys_putAll hc hl m.entries m.nodupKeys]
    rw [size_eq_keys_length] at hm
    exact mem_overlay_of_room hm (AList.mem_keys.mp hmem)
  rw [lookup_putAll_of_mem m l hkept,if_pos hmem,hk]

end Batch
end RecencyCache
end Kivi
