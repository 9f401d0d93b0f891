import Mathlib

/-! The reference cache with least-recently-used eviction: the association list of its
entries, the most recently used one first. -/
namespace Kivi
namespace RecencyCache

variable {κ ν : Type*}

/-- A finite map together with an order of its entries. -/
abbrev Assoc (κ ν : Type*) := AList (fun _ : κ => ν)

abbrev Table (κ ν : Type*) := Finmap (fun _ : κ => ν)

def size (l : Assoc κ ν) : ℕ := l.entries.length

def evict (l : Assoc κ ν) : Assoc κ ν :=
  ⟨l.entries.dropLast,l.nodupKeys.sublist (List.dropLast_sublist _)⟩

def makeRoom (capacity : ℕ) (l : Assoc κ ν) : Assoc κ ν :=
  if size l = capacity then evict l else l

@[simp] theorem size_empty : size (∅ : Assoc κ ν) = 0 := rfl

theorem size_eq_keys_length (l : Assoc κ ν) : size l = l.keys.length := by
  simp [size,AList.keys,List.keys]

theorem size_evict (l : Assoc κ ν) : size (evict l) = size l-1 := by
  simp [size,evict]

theorem keys_evict (l : Assoc κ ν) : (evict l).keys = l.keys.dropLast := by
  simp [evict,AList.keys,List.keys,List.map_dropLast]

theorem notMem_evict {k : κ} {l : Assoc κ ν} (h : k ∉ l) : k ∉ evict l := by
  rw [AList.mem_keys,keys_evict]
  exact fun hk => h (AList.mem_keys.mpr (List.mem_of_mem_dropLast hk))

theorem notMem_makeRoom {capacity : ℕ} {k : κ} {l : Assoc κ ν} (h : k ∉ l) :
    k ∉ makeRoom capacity l := by
  unfold makeRoom
  split
  · exact notMem_evict h
  · exact h

theorem makeRoom_of_lt {capacity : ℕ} {l : Assoc κ ν} (h : size l < capacity) :
    makeRoom capacity l = l := if_neg h.ne

theorem size_makeRoom_lt {capacity : ℕ} {l : Assoc κ ν} (hc : 1 ≤ capacity)
    (h : size l ≤ capacity) : size (makeRoom capacity l) < capacity := by
  unfold makeRoom
  split
  · rw [size_evict]; omega
  · omega

variable [DecidableEq κ]

def put (capacity : ℕ) (k : κ) (v : ν) (l : Assoc κ ν) : Assoc κ ν :=
  if k ∈ l then l.insert k v else (makeRoom capacity l).insert k v

def get (k : κ) (l : Assoc κ ν) : Assoc κ ν × Option ν :=
  match l.lookup k with
  | none => (l,none)
  | some v => (l.insert k v,some v)

def remove (k : κ) (l : Assoc κ ν) : Assoc κ ν × Bool := (l.erase k,decide (k ∈ l))

def putAll (capacity : ℕ) : List (Σ _ : κ, ν) → Assoc κ ν → Assoc κ ν
  | [], l => l
  | e::es, l => putAll capacity es (put capacity e.1 e.2 l)

/-- The operations of a cache. A batch comes with the order it is applied in. -/
inductive Op (κ ν : Type*)
  | put (key : κ) (value : ν)
  | get (key : κ)
  | remove (key : κ)
  | getKvBatch
  | setKvBatch (batch : Assoc κ ν)

inductive Answer (κ ν : Type*)
  | done
  | value (v : Option ν)
  | removed (b : Bool)
  | batch (m : Table κ ν)

def step (capacity : ℕ) : Op κ ν → Assoc κ ν → Assoc κ ν × Answer κ ν
  | .put k v, l => (put capacity k v l,.done)
  | .get k, l => ((get k l).1,.value (get k l).2)
  | .remove k, l => ((remove k l).1,.removed (remove k l).2)
  | .getKvBatch, l => (l,.batch l.toFinmap)
  | .setKvBatch m, l => (putAll capacity m.entries l,.done)

theorem filter_ne_self {k : κ} {keys : List κ} (h : k ∉ keys) :
    keys.filter (fun j => decide (j ≠ k)) = keys := by
  apply List.filter_eq_self.mpr
  intro j hj
  simpa using fun he : j = k => h (he ▸ hj)

theorem erase_eq_filter_ne {k : κ} {keys : List κ} (hd : keys.Nodup) :
    keys.erase k = keys.filter (fun j => decide (j ≠ k)) := by
  rw [hd.erase_eq_filter]
  apply List.filter_congr
  intro j _
  by_cases h : j = k <;> simp [h]

theorem keys_erase (k : κ) (l : Assoc κ ν) :
    (l.erase k).keys = l.keys.filter (fun j => decide (j ≠ k)) := by
  rw [AList.keys_erase,erase_eq_filter_ne l.keys_nodup]

theorem keys_insert (k : κ) (v : ν) (l : Assoc κ ν) :
    (l.insert k v).keys = k :: l.keys.filter (fun j => decide (j ≠ k)) := by
  rw [AList.keys_insert,← AList.keys_erase,keys_erase]

theorem kerase_concat {es : List (Σ _ : κ, ν)} {e : Σ _ : κ, ν} (h : (es ++ [e]).NodupKeys) :
    List.kerase e.1 (es ++ [e]) = es := by
  rw [List.NodupKeys,List.keys_append,List.nodup_append] at h
  have hnot : e.1 ∉ es.keys := fun hmem => h.2.2 _ hmem _ (by simp) rfl
  rw [List.kerase_append_right hnot,List.kerase_cons_eq rfl,List.append_nil]

theorem evict_eq_erase {l : Assoc κ ν} (hl : l.entries ≠ []) :
    evict l = l.erase (l.entries.getLast hl).1 := by
  have hlast := List.dropLast_append_getLast hl
  apply AList.ext
  calc l.entries.dropLast
      = List.kerase (l.entries.getLast hl).1 (l.entries.dropLast ++ [l.entries.getLast hl]) :=
        (kerase_concat (by rw [hlast]; exact l.nodupKeys)).symm
    _ = List.kerase (l.entries.getLast hl).1 l.entries := by rw [hlast]

theorem size_insert_of_mem {k : κ} {v : ν} {l : Assoc κ ν} (h : k ∈ l) :
    size (l.insert k v) = size l := by
  have hk : k ∈ l.keys := AList.mem_keys.mp h
  have hpos : 0 < l.keys.length := List.length_pos_of_mem hk
  simp only [size_eq_keys_length,AList.keys_insert,List.length_cons,List.length_erase_of_mem hk]
  omega

theorem size_insert_of_notMem {k : κ} {v : ν} {l : Assoc κ ν} (h : k ∉ l) :
    size (l.insert k v) = size l+1 := by
  have hk : k ∉ l.keys := fun hk => h (AList.mem_keys.mpr hk)
  simp [size_eq_keys_length,AList.keys_insert,List.erase_of_not_mem hk]

theorem lookup_evict {k : κ} {v : ν} {l : Assoc κ ν} (h : (evict l).lookup k = some v) :
    l.lookup k = some v :=
  List.mem_dlookup l.nodupKeys
    ((List.dropLast_sublist _).subset (List.of_mem_dlookup h))

theorem lookup_makeRoom {capacity : ℕ} {k : κ} {v : ν} {l : Assoc κ ν}
    (h : (makeRoom capacity l).lookup k = some v) : l.lookup k = some v := by
  unfold makeRoom at h
  split at h
  · exact lookup_evict h
  · exact h

@[simp] theorem lookup_put_self (capacity : ℕ) (k : κ) (v : ν) (l : Assoc κ ν) :
    (put capacity k v l).lookup k = some v := by
  unfold put
  split <;> exact AList.lookup_insert _

/-- A put invents nothing: another entry present afterwards was there before. -/
theorem lookup_put_ne {capacity : ℕ} {k j : κ} {v w : ν} {l : Assoc κ ν} (hj : j ≠ k)
    (h : (put capacity k v l).lookup j = some w) : l.lookup j = some w := by
  unfold put at h
  split at h
  · rwa [AList.lookup_insert_ne hj] at h
  · rw [AList.lookup_insert_ne hj] at h
    exact lookup_makeRoom h

/-- While there is room, a put is the update of a map. -/
theorem lookup_put_of_lt {capacity : ℕ} {k j : κ} {v : ν} {l : Assoc κ ν}
    (hj : j ≠ k) (h : k ∈ l ∨ size l < capacity) :
    (put capacity k v l).lookup j = l.lookup j := by
  unfold put
  split
  · exact AList.lookup_insert_ne hj
  · rename_i hk
    rw [makeRoom_of_lt (h.resolve_left hk),AList.lookup_insert_ne hj]

@[simp] theorem get_answer (k : κ) (l : Assoc κ ν) : (get k l).2 = l.lookup k := by
  unfold get
  split <;> simp_all

@[simp] theorem lookup_get (k j : κ) (l : Assoc κ ν) : (get k l).1.lookup j = l.lookup j := by
  unfold get
  split
  · rfl
  · rename_i v hv
    by_cases hj : j = k
    · subst j
      rw [AList.lookup_insert,hv]
    · exact AList.lookup_insert_ne hj

theorem size_remove_le (k : κ) (l : Assoc κ ν) : size (remove k l).1 ≤ size l := by
  simp only [size_eq_keys_length,remove,AList.keys_erase]
  exact List.length_erase_le

theorem lookup_putAll {capacity : ℕ} {k : κ} {v : ν} (es : List (Σ _ : κ, ν)) {l : Assoc κ ν}
    (h : (putAll capacity es l).lookup k = some v) : ⟨k,v⟩ ∈ es ∨ l.lookup k = some v := by
  induction es generalizing l with
  | nil => exact .inr h
  | cons e es ih =>
    rcases ih h with hmem | hl
    · exact .inl (List.mem_cons_of_mem _ hmem)
    · by_cases hk : k = e.1
      · subst k
        rw [lookup_put_self,Option.some.injEq] at hl
        subst v
        exact .inl List.mem_cons_self
      · exact .inr (lookup_put_ne hk hl)

def Op.pairs : Op κ ν → List (Σ _ : κ, ν)
  | .put k v => [⟨k,v⟩]
  | .setKvBatch m => m.entries
  | _ => []

theorem lookup_step {capacity : ℕ} {k : κ} {v : ν} {op : Op κ ν} {l : Assoc κ ν}
    (h : (step capacity op l).1.lookup k = some v) : ⟨k,v⟩ ∈ op.pairs ∨ l.lookup k = some v := by
  cases op with
  | put j w => exact lookup_putAll [⟨j,w⟩] h
  | get j => exact .inr ((lookup_get j k l).symm.trans h)
  | remove j =>
    right
    by_cases hj : k = j
    · subst j
      simp [step,remove] at h
    · rwa [step,remove,AList.lookup_erase_ne hj] at h
  | getKvBatch => exact .inr h
  | setKvBatch m => exact lookup_putAll m.entries h

/-! ### A cache with room for every key is a map -/

/-- The map after the assignments, made one after another. -/
def assign (es : List (Σ _ : κ, ν)) (m : κ → Option ν) : κ → Option ν :=
  es.foldl (fun m e => Function.update m e.1 (some e.2)) m

@[simp] theorem assign_nil (m : κ → Option ν) : assign [] m = m := rfl

@[simp] theorem assign_cons (e : Σ _ : κ, ν) (es : List (Σ _ : κ, ν)) (m : κ → Option ν) :
    assign (e::es) m = assign es (Function.update m e.1 (some e.2)) := rfl

theorem assign_of_notMem {k : κ} {es : List (Σ _ : κ, ν)} (h : ∀ e ∈ es, e.1 ≠ k)
    (m : κ → Option ν) : assign es m k = m k := by
  induction es generalizing m with
  | nil => rfl
  | cons e es ih =>
    have hrest := ih (fun e he => h e (by simp [he])) (Function.update m e.1 (some e.2))
    rw [assign_cons,hrest,Function.update_of_ne (h e (by simp)).symm]

theorem assign_of_agree {k : κ} {v : ν} {es : List (Σ _ : κ, ν)}
    (h : ∀ w, (⟨k,w⟩ : Σ _ : κ, ν) ∈ es → w = v) {m : κ → Option ν} (hm : m k = some v) :
    assign es m k = some v := by
  induction es generalizing m with
  | nil => exact hm
  | cons e es ih =>
    rw [assign_cons]
    apply ih (fun w hw => h w (by simp [hw]))
    by_cases hk : k = e.1
    · subst k
      rw [Function.update_self,h e.2 List.mem_cons_self]
    · rw [Function.update_of_ne hk,hm]

theorem assign_of_mem {k : κ} {v : ν} {es : List (Σ _ : κ, ν)}
    (h : ∀ w, (⟨k,w⟩ : Σ _ : κ, ν) ∈ es → w = v) (hmem : (⟨k,v⟩ : Σ _ : κ, ν) ∈ es)
    (m : κ → Option ν) : assign es m k = some v := by
  induction es generalizing m with
  | nil => simp at hmem
  | cons e es ih =>
    have hrest : ∀ w, (⟨k,w⟩ : Σ _ : κ, ν) ∈ es → w = v := fun w hw => h w (by simp [hw])
    rw [assign_cons]
    rcases List.mem_cons.mp hmem with rfl | hmem
    · exact assign_of_agree hrest (Function.update_self _ _ _)
    · exact ih hrest hmem _

def Within (ks : Finset κ) (l : Assoc κ ν) : Prop := ∀ k ∈ l, k ∈ ks

variable {ks : Finset κ} {l : Assoc κ ν}

theorem size_lt_card (h : Within ks l) {k : κ} (hk : k ∈ ks) (hnot : k ∉ l) :
    size l < ks.card := by
  have hsub : l.keys.toFinset ⊆ ks.erase k := by
    intro j hj
    have hjl : j ∈ l := AList.mem_keys.mpr (List.mem_toFinset.mp hj)
    refine Finset.mem_erase.mpr ⟨?_,h j hjl⟩
    rintro rfl
    exact hnot hjl
  have hcard := Finset.card_le_card hsub
  rw [List.toFinset_card_of_nodup l.keys_nodup,Finset.card_erase_of_mem hk] at hcard
  have hpos := Finset.card_pos.mpr ⟨k,hk⟩
  rw [size_eq_keys_length]
  omega

theorem lookup_put_within {capacity : ℕ} (hcard : ks.card ≤ capacity) (h : Within ks l) {k : κ}
    (hk : k ∈ ks) (v : ν) :
    (put capacity k v l).lookup = Function.update l.lookup k (some v) := by
  funext j
  by_cases hj : j = k
  · subst j
    rw [lookup_put_self,Function.update_self]
  · rw [Function.update_of_ne hj]
    apply lookup_put_of_lt hj
    by_cases hmem : k ∈ l
    · exact .inl hmem
    · exact .inr ((size_lt_card h hk hmem).trans_le hcard)

theorem within_of_lookup (h : ∀ k v, l.lookup k = some v → k ∈ ks) : Within ks l := by
  intro k hk
  obtain ⟨v,hv⟩ := Option.isSome_iff_exists.mp (AList.lookup_isSome.mpr hk)
  exact h k v hv

theorem Within.lookup (h : Within ks l) {k : κ} {v : ν} (hk : l.lookup k = some v) : k ∈ ks :=
  h k (AList.lookup_isSome.mp (by simp [hk]))

theorem within_put {capacity : ℕ} (h : Within ks l) {k : κ} (hk : k ∈ ks) (v : ν) :
    Within ks (put capacity k v l) := by
  apply within_of_lookup
  intro j w hj
  by_cases hjk : j = k
  · rwa [hjk]
  · have hold := lookup_put_ne hjk hj
    exact h.lookup hold

theorem lookup_putAll_within {capacity : ℕ} (hcard : ks.card ≤ capacity)
    (es : List (Σ _ : κ, ν)) (h : Within ks l) (hes : ∀ e ∈ es, e.1 ∈ ks) :
    (putAll capacity es l).lookup = assign es l.lookup := by
  induction es generalizing l with
  | nil => rfl
  | cons e es ih =>
    have he : e.1 ∈ ks := hes e (by simp)
    have hrest := ih (l:=put capacity e.1 e.2 l) (within_put h he e.2) fun e he =>
      hes e (by simp [he])
    rw [putAll,hrest,lookup_put_within hcard h he,assign_cons]

end RecencyCache
end Kivi
