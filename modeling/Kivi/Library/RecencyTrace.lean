import Kivi.Library.RecencyCache
import Kivi.Library.Refinement

/-! Which keys a cache holds, read off the calls made so far. Traces are lists of calls
with their answers, the latest call first. -/
namespace Kivi
namespace RecencyCache

variable {κ ν : Type*} {capacity : ℕ}

def Op.Keyed : Op κ ν → Prop
  | .put _ _ | .get _ | .remove _ => True
  | .getKvBatch | .setKvBatch _ => False

abbrev Call (κ ν : Type*) := Op κ ν × Answer κ ν

/-- The key a call touches: the key of a put, or of a get that returned a value. -/
def touched : Call κ ν → Option κ
  | (.put k _,_) => some k
  | (.get k,.value (some _)) => some k
  | _ => none

def removed : Call κ ν → Option κ
  | (.remove k,_) => some k
  | _ => none

theorem removed_of_touched {c : Call κ ν} {k : κ} (h : touched c = some k) :
    removed c = none := by
  unfold touched at h
  split at h <;> first | rfl | simp at h

section Trace

variable [DecidableEq κ] {trace : List (Call κ ν)} {c : Call κ ν} {j k : κ}

def written (k : κ) : Call κ ν → Option ν
  | (.put j v,_) => if j = k then some v else none
  | _ => none

def since (k : κ) (trace : List (Call κ ν)) : List (Call κ ν) :=
  trace.takeWhile fun c => decide (touched c ≠ some k)

/-- The key was touched and not removed after its last touch. -/
def Kept (k : κ) (trace : List (Call κ ν)) : Prop :=
  (∃ c ∈ trace, touched c = some k) ∧ ∀ c ∈ since k trace, removed c ≠ some k

/-- The key is kept, and at no moment since its last touch there were `capacity` other keys
touched since then and kept. -/
def Recent (capacity : ℕ) (k : κ) (trace : List (Call κ ν)) : Prop :=
  Kept k trace ∧ ∀ moment, moment <:+ since k trace →
    ¬ ∃ js : Finset κ, capacity ≤ js.card ∧ ∀ j ∈ js, j ≠ k ∧ Kept j moment

def live : List (Call κ ν) → Finset κ
  | [] => ∅
  | c::trace =>
    match touched c,removed c with
    | some j,_ => insert j (live trace)
    | none,some j => (live trace).erase j
    | none,none => live trace

theorem since_cons_self (h : touched c = some k) : since k (c::trace) = [] := by
  simp [since,h]

theorem since_cons_ne (h : touched c ≠ some k) : since k (c::trace) = c :: since k trace := by
  simp [since,h]

theorem kept_cons_self (h : touched c = some k) : Kept k (c::trace) := by
  refine ⟨⟨c,List.mem_cons_self,h⟩,?_⟩
  simp [since_cons_self h]

theorem kept_cons_ne (h : touched c ≠ some k) :
    Kept k (c::trace) ↔ removed c ≠ some k ∧ Kept k trace := by
  simp only [Kept,since_cons_ne h,List.mem_cons,forall_eq_or_imp,exists_eq_or_imp,h,false_or]
  tauto

theorem mem_live_iff : k ∈ live trace ↔ Kept k trace := by
  induction trace with
  | nil => simp [live,Kept]
  | cons c trace ih =>
    by_cases h : touched c = some k
    · simp [live,h,kept_cons_self h]
    · rw [kept_cons_ne h,← ih,live]
      cases ht : touched c with
      | some j =>
        have hj : k ≠ j := fun he => h (by rw [ht,he])
        simp [hj,removed_of_touched ht]
      | none =>
        cases hr : removed c with
        | none => simp
        | some j => simp [eq_comm]

theorem notMem_live_since {moment : List (Call κ ν)} (hm : moment <:+ since k trace) :
    k ∉ live moment := by
  rw [mem_live_iff]
  rintro ⟨⟨c,hc,hk⟩,_⟩
  simpa [hk] using List.mem_takeWhile_imp (hm.subset hc)

theorem recent_iff : Recent capacity k trace ↔
    Kept k trace ∧ ∀ moment, moment <:+ since k trace → (live moment).card < capacity := by
  refine and_congr_right fun _ => forall₂_congr fun moment hm => ?_
  have hk : k ∉ live moment := notMem_live_since hm
  constructor
  · intro h
    by_contra hcard
    refine h ⟨live moment,by omega,fun j hj => ⟨?_,mem_live_iff.mp hj⟩⟩
    rintro rfl
    exact hk hj
  · rintro h ⟨js,hjs,hall⟩
    have hsub : js ⊆ live moment := fun j hj => mem_live_iff.mpr (hall j hj).2
    have hcard := Finset.card_le_card hsub
    omega

theorem recent_cons_self (hcap : 1 ≤ capacity) (h : touched c = some k) :
    Recent capacity k (c::trace) := by
  refine recent_iff.mpr ⟨kept_cons_self h,fun moment hm => ?_⟩
  rw [since_cons_self h,List.suffix_nil] at hm
  subst moment
  exact hcap

/-- A call that does not touch the key leaves it recent unless it removes it or fills the
last free place before it. -/
theorem recent_cons_ne (h : touched c ≠ some k) :
    Recent capacity k (c::trace) ↔ Recent capacity k trace ∧ removed c ≠ some k ∧
      (live (c::since k trace)).card < capacity := by
  simp only [recent_iff,kept_cons_ne h,since_cons_ne h,List.suffix_cons_iff,forall_eq_or_imp]
  tauto

end Trace

section Order

variable [DecidableEq κ] {j k : κ} {keys : List κ}

def front (k : κ) (keys : List κ) : List κ := keys.takeWhile fun j => decide (j ≠ k)

/-- The keys after a touch of `k`, in order of use. -/
def touch (capacity : ℕ) (k : κ) (keys : List κ) : List κ :=
  k :: (if k ∈ keys ∨ keys.length < capacity then keys else keys.dropLast).filter
    fun j => decide (j ≠ k)

theorem front_append {p q : List κ} (h : k ∉ p) : front k (p ++ k::q) = p := by
  have hp : ∀ j ∈ p, decide (j ≠ k) = true := by
    intro j hj
    simpa using fun he : j = k => h (he ▸ hj)
  rw [front,List.takeWhile_append_of_pos hp]
  simp

theorem exists_front (hk : k ∈ keys) : ∃ q, keys = front k keys ++ k::q := by
  obtain ⟨p,q,rfl,hp⟩ := List.eq_append_cons_of_mem hk
  exact ⟨q,by rw [front_append hp]⟩

theorem notMem_front (k : κ) (keys : List κ) : k ∉ front k keys := by
  intro h
  simpa using List.mem_takeWhile_imp h

theorem front_sublist (k : κ) (keys : List κ) : (front k keys).Sublist keys :=
  List.takeWhile_sublist _

theorem length_front_lt (hk : k ∈ keys) : (front k keys).length < keys.length := by
  obtain ⟨q,hq⟩ := exists_front hk
  have hlength := congrArg List.length hq
  simp only [List.length_append,List.length_cons] at hlength
  omega

theorem front_filter (h : j ≠ k) (keys : List κ) :
    front j (keys.filter fun i => decide (i ≠ k)) =
      (front j keys).filter fun i => decide (i ≠ k) := by
  induction keys with
  | nil => rfl
  | cons i keys ih =>
    unfold front at ih ⊢
    by_cases hi : i = k
    · subst i
      simpa [h.symm] using ih
    · by_cases hj : i = j
      · subst i
        simp [hi]
      · simpa [hi,hj] using ih

theorem mem_dropLast_iff (hd : keys.Nodup) (hk : k ∈ keys) :
    k ∈ keys.dropLast ↔ (front k keys).length+1 < keys.length := by
  obtain ⟨q,hq⟩ := exists_front hk
  have hnot := notMem_front k keys
  generalize front k keys = p at hq hnot ⊢
  subst hq
  cases q with
  | nil => simpa using hnot
  | cons i q => simp [List.dropLast_append_of_ne_nil]

theorem front_dropLast (hk : k ∈ keys.dropLast) : front k keys.dropLast = front k keys := by
  obtain ⟨p,q,hq,hp⟩ := List.eq_append_cons_of_mem hk
  have hne : keys ≠ [] := by
    rintro rfl
    simp at hk
  have hkeys : keys = p ++ k::(q ++ [keys.getLast hne]) := by
    have hlast := List.dropLast_append_getLast hne
    rw [hq] at hlast
    simpa using hlast.symm
  rw [hq,front_append hp,hkeys,front_append hp]

theorem front_touch_ne (h : j ≠ k) (hj : j ∈ touch capacity k keys) :
    front j (touch capacity k keys) = k :: (front j keys).filter fun i => decide (i ≠ k) := by
  unfold touch at hj ⊢
  have hrest := front_filter h
  unfold front at hrest ⊢
  rw [List.takeWhile_cons_of_pos (by simpa using h.symm),hrest]
  split_ifs with hroom
  · rfl
  · rw [if_neg hroom,List.mem_cons,List.mem_filter] at hj
    have hlast := (hj.resolve_left h).1
    have hfront := front_dropLast hlast
    unfold front at hfront
    rw [hfront]

theorem mem_touch_ne (h : j ≠ k) (hd : keys.Nodup) (hle : keys.length ≤ capacity) :
    j ∈ touch capacity k keys ↔
      j ∈ keys ∧ (insert k (front j keys).toFinset).card < capacity := by
  have hmem : j ∈ touch capacity k keys ↔
      j ∈ if k ∈ keys ∨ keys.length < capacity then keys else keys.dropLast := by
    simp [touch,h]
  have hcard : (front j keys).toFinset.card = (front j keys).length :=
    List.toFinset_card_of_nodup (hd.sublist (front_sublist j keys))
  have hlt : j ∈ keys → (front j keys).length < keys.length := length_front_lt
  rw [hmem]
  by_cases hk : k ∈ keys
  · rw [if_pos (.inl hk)]
    refine ⟨fun hj => ⟨hj,?_⟩,And.left⟩
    have hsub : insert k (front j keys).toFinset ⊆ keys.toFinset.erase j := by
      intro i hi
      rw [Finset.mem_erase,List.mem_toFinset]
      rcases Finset.mem_insert.mp hi with rfl | hi
      · exact ⟨h.symm,hk⟩
      · rw [List.mem_toFinset] at hi
        refine ⟨?_,(front_sublist j keys).subset hi⟩
        rintro rfl
        exact notMem_front _ keys hi
    have hle' := Finset.card_le_card hsub
    rw [Finset.card_erase_of_mem (List.mem_toFinset.mpr hj),
      List.toFinset_card_of_nodup hd] at hle'
    have := hlt hj
    omega
  · have hnot : k ∉ (front j keys).toFinset := fun hi =>
      hk ((front_sublist j keys).subset (List.mem_toFinset.mp hi))
    rw [Finset.card_insert_of_notMem hnot,hcard]
    by_cases hroom : keys.length < capacity
    · rw [if_pos (.inr hroom)]
      refine ⟨fun hj => ⟨hj,?_⟩,And.left⟩
      have := hlt hj
      omega
    · rw [if_neg (by tauto)]
      have hfull : keys.length = capacity := by omega
      constructor
      · intro hj
        have hjk := List.mem_of_mem_dropLast hj
        exact ⟨hjk,by rw [← hfull]; exact (mem_dropLast_iff hd hjk).mp hj⟩
      · rintro ⟨hj,hlt⟩
        exact (mem_dropLast_iff hd hj).mpr (by rwa [hfull])

end Order

section Recorded

variable [DecidableEq κ] {trace : List (Call κ ν)} {c : Call κ ν} {j k : κ} {v : ν}
  {l l' : Assoc κ ν}

/-- What the calls made so far say about the cache: which keys it holds, which keys stand
before each of them and with what values. -/
structure Recorded (capacity : ℕ) (trace : List (Call κ ν)) (l : Assoc κ ν) : Prop where
  bounded : size l ≤ capacity
  mem_iff : ∀ k, k ∈ l ↔ Recent capacity k trace
  front_eq : ∀ k ∈ l, live (since k trace) = (front k l.keys).toFinset
  value : ∀ k v, l.lookup k = some v → trace.findSome? (written k) = some v

theorem keys_put (hle : size l ≤ capacity) (k : κ) (v : ν) :
    (put capacity k v l).keys = touch capacity k l.keys := by
  rw [size_eq_keys_length] at hle
  unfold put makeRoom touch
  rw [size_eq_keys_length]
  by_cases hk : k ∈ l
  · have hmem : k ∈ l.keys := AList.mem_keys.mp hk
    rw [if_pos hk,if_pos (.inl hmem),keys_insert]
  · have hmem : k ∉ l.keys := fun h => hk (AList.mem_keys.mpr h)
    rw [if_neg hk]
    by_cases hfull : l.keys.length = capacity
    · have hroom : ¬ (k ∈ l.keys ∨ l.keys.length < capacity) := by
        rintro (h | h)
        · exact hmem h
        · omega
      rw [if_pos hfull,if_neg hroom,keys_insert,keys_evict]
    · rw [if_neg hfull,if_pos (.inr (by omega)),keys_insert]

theorem size_put_le (hcap : 1 ≤ capacity) (hle : size l ≤ capacity) (k : κ) (v : ν) :
    size (put capacity k v l) ≤ capacity := by
  unfold put
  split_ifs with hk
  · rwa [size_insert_of_mem hk]
  · rw [size_insert_of_notMem (notMem_makeRoom hk)]
    exact size_makeRoom_lt hcap hle

theorem keys_get (hv : l.lookup k = some v) : (get k l).1.keys = touch capacity k l.keys := by
  have hk : k ∈ l.keys := AList.mem_keys.mp (AList.lookup_isSome.mp (by rw [hv]; rfl))
  simp only [get,hv,touch,if_pos (Or.inl hk),keys_insert]

namespace Recorded

theorem empty (capacity : ℕ) : Recorded capacity ([] : List (Call κ ν)) ∅ where
  bounded := Nat.zero_le _
  mem_iff k := by simp [Recent,Kept]
  front_eq k hk := absurd hk (AList.notMem_empty k)
  value k v hk := by simp at hk

theorem card_live (h : Recorded capacity trace l) (hk : k ∈ l) :
    (live (since k trace)).card < capacity := by
  have hfront := length_front_lt (AList.mem_keys.mp hk)
  have hbound := h.bounded
  have hcard := List.toFinset_card_le (front k l.keys)
  rw [size_eq_keys_length] at hbound
  rw [h.front_eq k hk]
  omega

theorem touch (h : Recorded capacity trace l) (hcap : 1 ≤ capacity) (hc : touched c = some k)
    (hkeys : l'.keys = touch capacity k l.keys) (hsize : size l' ≤ capacity)
    (hvalue : ∀ j v, l'.lookup j = some v → (c::trace).findSome? (written j) = some v) :
    Recorded capacity (c::trace) l' := by
  have hr : removed c = none := removed_of_touched hc
  have hlive : ∀ j, live (c::since j trace) = insert k (live (since j trace)) := by
    intro j
    simp [live,hc]
  have hbound := h.bounded
  rw [size_eq_keys_length] at hbound
  refine ⟨hsize,fun j => ?_,fun j hj => ?_,hvalue⟩
  · by_cases hj : j = k
    · subst j
      have hmem : k ∈ l' := by
        rw [AList.mem_keys,hkeys]
        exact List.mem_cons_self
      exact ⟨fun _ => recent_cons_self hcap hc,fun _ => hmem⟩
    · have hne : touched c ≠ some j := by simpa [hc] using fun he : k = j => hj he.symm
      rw [AList.mem_keys,hkeys,mem_touch_ne hj l.keys_nodup hbound,recent_cons_ne hne,
        ← h.mem_iff,← AList.mem_keys,hlive,hr]
      refine and_congr_right fun hmem => ?_
      rw [h.front_eq j hmem]
      simp
  · rw [AList.mem_keys,hkeys] at hj
    by_cases hjk : j = k
    · subst j
      rw [since_cons_self hc,hkeys]
      simp [live,front,RecencyCache.touch]
    · have hne : touched c ≠ some j := by simpa [hc] using fun he : k = j => hjk he.symm
      have hmem : j ∈ l :=
        AList.mem_keys.mpr ((mem_touch_ne hjk l.keys_nodup hbound).mp hj).1
      rw [since_cons_ne hne,hlive,hkeys,front_touch_ne hjk hj,h.front_eq j hmem]
      ext i
      by_cases hi : i = k <;> simp [hi]

theorem remove (h : Recorded capacity trace l) (k : κ) (a : Answer κ ν) :
    Recorded capacity ((.remove k,a)::trace) (l.erase k) := by
  have hne : ∀ j, touched (.remove k,a) ≠ some j := fun j => by simp [touched]
  have hlive : ∀ j, live ((.remove k,a)::since j trace) = (live (since j trace)).erase k := by
    intro j
    simp [live,touched,removed]
  refine ⟨(size_remove_le k l).trans h.bounded,fun j => ?_,fun j hj => ?_,fun j v hj => ?_⟩
  · rw [AList.mem_erase,recent_cons_ne (hne j),← h.mem_iff,hlive]
    have hcard : j ∈ l → ((live (since j trace)).erase k).card < capacity := fun hj =>
      (Finset.card_le_card (Finset.erase_subset _ _)).trans_lt (h.card_live hj)
    have hkey : removed (.remove k,a) ≠ some j ↔ j ≠ k := by simp [removed,eq_comm]
    tauto
  · obtain ⟨hjk,hmem⟩ := (AList.mem_erase).mp hj
    rw [since_cons_ne (hne j),hlive,keys_erase,front_filter hjk,h.front_eq j hmem]
    ext i
    simp [and_comm]
  · have hjk : j ≠ k := by
      rintro rfl
      simp at hj
    rw [AList.lookup_erase_ne hjk] at hj
    exact h.value j v hj

theorem miss (h : Recorded capacity trace l) (k : κ) :
    Recorded capacity ((.get k,.value none)::trace) l := by
  have hne : ∀ j, touched (.get k,(.value none : Answer κ ν)) ≠ some j := fun j => by
    simp [touched]
  have hlive : ∀ j, live ((.get k,.value none)::since j trace) = live (since j trace) := by
    intro j
    simp [live,touched,removed]
  refine ⟨h.bounded,fun j => ?_,fun j hj => ?_,fun j v hj => ?_⟩
  · have hcard : j ∈ l → (live (since j trace)).card < capacity := h.card_live
    have hkey : removed (.get k,(.value none : Answer κ ν)) ≠ some j := by simp [removed]
    rw [recent_cons_ne (hne j),← h.mem_iff,hlive]
    tauto
  · rw [since_cons_ne (hne j),hlive,h.front_eq j hj]
  · exact h.value j v hj

theorem put (h : Recorded capacity trace l) (hcap : 1 ≤ capacity) (k : κ) (v : ν)
    (a : Answer κ ν) : Recorded capacity ((.put k v,a)::trace) (put capacity k v l) := by
  have hkeys := keys_put h.bounded k v
  have hsize : size (RecencyCache.put capacity k v l) ≤ capacity := size_put_le hcap h.bounded k v
  refine h.touch hcap rfl hkeys hsize fun j w hj => ?_
  by_cases hjk : j = k
  · subst j
    rw [lookup_put_self] at hj
    simpa [written] using hj
  · have hold := h.value j w (lookup_put_ne hjk hj)
    have hkj : k ≠ j := Ne.symm hjk
    simpa [written,hkj] using hold

theorem hit (h : Recorded capacity trace l) (hcap : 1 ≤ capacity) (hv : l.lookup k = some v) :
    Recorded capacity ((.get k,.value (some v))::trace) (get k l).1 := by
  have hk : k ∈ l := AList.lookup_isSome.mp (by rw [hv]; rfl)
  have hsize : size (get k l).1 = size l := by
    simp only [get,hv,size_insert_of_mem hk]
  refine h.touch hcap rfl (keys_get hv) (hsize.trans_le h.bounded) fun j w hj => ?_
  rw [lookup_get] at hj
  exact h.value j w hj

theorem step (h : Recorded capacity trace l) (hcap : 1 ≤ capacity) {op : Op κ ν}
    (hop : op.Keyed) :
    Recorded capacity ((op,(step capacity op l).2)::trace) (step capacity op l).1 := by
  cases op with
  | put k v => exact h.put hcap k v _
  | get k =>
    cases hv : l.lookup k with
    | none =>
      have hmiss := h.miss k
      simpa only [RecencyCache.step,get,hv] using hmiss
    | some v =>
      have hhit := h.hit hcap hv
      simpa only [RecencyCache.step,get_answer,hv] using hhit
  | remove k => exact h.remove k _
  | getKvBatch => exact hop.elim
  | setKvBatch m => exact hop.elim

/-- The key that an overflowing put evicts: every other key was touched after it. -/
theorem evicted (h : Recorded capacity trace l) (hcap : 1 ≤ capacity)
    (hfull : size l = capacity) (hk : k ∉ l) (v : ν) :
    ∃ e ∈ l, (∀ j, j ∈ RecencyCache.put capacity k v l ↔ j = k ∨ j ∈ l ∧ j ≠ e) ∧
      ∀ j ∈ l, j ≠ e → ∃ c ∈ since e trace, touched c = some j := by
  have hne : l.entries ≠ [] := by
    intro hnil
    simp only [size,hnil,List.length_nil] at hfull
    omega
  have hlast := List.dropLast_append_getLast hne
  have hkeys : l.keys = (evict l).keys ++ [(l.entries.getLast hne).1] := by
    have hmap := congrArg (List.map Sigma.fst) hlast
    rw [List.map_append] at hmap
    exact hmap.symm
  have hmem : (l.entries.getLast hne).1 ∈ l := by
    rw [AList.mem_keys,hkeys]
    simp
  refine ⟨(l.entries.getLast hne).1,hmem,fun j => ?_,fun j hj hje => ?_⟩
  · rw [RecencyCache.put,if_neg hk,makeRoom,if_pos hfull,evict_eq_erase hne,AList.mem_insert,
      AList.mem_erase,and_comm]
  · have hnot : (l.entries.getLast hne).1 ∉ (evict l).keys := by
      have hd := l.keys_nodup
      rw [hkeys,List.nodup_append] at hd
      intro hmem
      exact hd.2.2 _ hmem _ (by simp) rfl
    have hfront : front (l.entries.getLast hne).1 l.keys = (evict l).keys := by
      rw [hkeys]
      exact front_append hnot
    have hjl : j ∈ live (since (l.entries.getLast hne).1 trace) := by
      rw [h.front_eq _ hmem,hfront,List.mem_toFinset]
      rw [AList.mem_keys,hkeys] at hj
      simpa [hje] using hj
    exact (mem_live_iff.mp hjl).1

end Recorded

/-- A cache started empty holds what its calls say. -/
theorem recorded_of_run (hcap : 1 ≤ capacity) {ops : List (Op κ ν)} (hops : ∀ op ∈ ops, op.Keyed) :
    Recorded capacity (ops.zip (Refinement.specAll (step capacity) ops ∅).2).reverse
      (Refinement.specAll (step capacity) ops ∅).1 := by
  have hrun : Recorded capacity
      ((ops.zip (Refinement.specAll (step capacity) ops ∅).2).reverse ++ [])
      (Refinement.specAll (step capacity) ops ∅).1 :=
    Refinement.specAll_history ops (fun op hop _ _ h => h.step hcap (hops op hop))
      (Recorded.empty capacity)
  rwa [List.append_nil] at hrun

end Recorded

end RecencyCache
end Kivi
