import Kivi.Library.RecencyCache

/-! Caches kept alike by shipping a log. One node is the primary: it sends every put to the
others, and on request a snapshot. Each of them makes the puts it is sent, in the order of
the log. A reader may reorder the entries of any cache at any time. -/
namespace Kivi
namespace LogShipping

open RecencyCache

variable {ι κ ν : Type*}

/-- What the primary has a replica do. -/
inductive Update (κ ν : Type*)
  | put (e : Σ _ : κ, ν)
  | snapshot (m : Assoc κ ν)

/-- The puts an update stands for; those of a snapshot may come in any order. -/
def Update.Enumerates : Update κ ν → List (Σ _ : κ, ν) → Prop
  | .put e, es => es = [e]
  | .snapshot m, es => es.Perm m.entries

structure State (ι κ ν : Type*) where
  cache : ι → Assoc κ ν
  log : ι → List (Update κ ν)

def State.empty : State ι κ ν := ⟨fun _ => ∅,fun _ => []⟩

inductive Action (ι κ ν : Type*)
  | put (k : κ) (v : ν)
  | get (i : ι) (k : κ)
  | ship (i : ι)
  | apply (i : ι)

variable [DecidableEq ι] [DecidableEq κ] {capacity : ℕ} {p : ι} {s t : State ι κ ν}
  {a : Action ι κ ν}

/-- One step, with primary `p`. -/
inductive Step (capacity : ℕ) (p : ι) : Action ι κ ν → State ι κ ν → State ι κ ν → Prop
  | put (s : State ι κ ν) (k : κ) (v : ν) : Step capacity p (.put k v) s
      ⟨Function.update s.cache p (put capacity k v (s.cache p)),
        fun i => if i = p then s.log i else s.log i ++ [.put ⟨k,v⟩]⟩
  | get (s : State ι κ ν) (i : ι) (k : κ) : Step capacity p (.get i k) s
      { s with cache := Function.update s.cache i (RecencyCache.get k (s.cache i)).1 }
  | ship (s : State ι κ ν) (i : ι) (m : Assoc κ ν) : i ≠ p →
      (∀ k, m.lookup k = (s.cache p).lookup k) → Step capacity p (.ship i) s
      { s with log := Function.update s.log i (s.log i ++ [.snapshot m]) }
  | apply (s : State ι κ ν) (i : ι) (u : Update κ ν) (us : List (Update κ ν))
      (es : List (Σ _ : κ, ν)) : s.log i = u::us → u.Enumerates es → Step capacity p (.apply i) s
      ⟨Function.update s.cache i (putAll capacity es (s.cache i)),Function.update s.log i us⟩

inductive Steps (capacity : ℕ) (p : ι) : List (Action ι κ ν) → State ι κ ν → State ι κ ν → Prop
  | nil (s : State ι κ ν) : Steps capacity p [] s s
  | snoc {as : List (Action ι κ ν)} {a : Action ι κ ν} {r s t : State ι κ ν} :
      Steps capacity p as r s → Step capacity p a s t → Steps capacity p (a::as) r t

theorem Step.mem_log (h : Step capacity p a s t) {i : ι} {u : Update κ ν} (hu : u ∈ t.log i) :
    u ∈ s.log i ∨ (∃ k v, a = .put k v ∧ u = .put ⟨k,v⟩) ∨
      (a = .ship i ∧ ∃ m, u = .snapshot m ∧ ∀ k, m.lookup k = (s.cache p).lookup k) := by
  cases h with
  | put _ k v =>
    by_cases hi : i = p
    · left
      simpa [hi] using hu
    · simp only [if_neg hi,List.mem_append,List.mem_singleton] at hu
      rcases hu with hu | hu
      · exact .inl hu
      · exact .inr (.inl ⟨k,v,rfl,hu⟩)
  | get _ j k => exact .inl hu
  | ship _ j m hj hm =>
    by_cases hi : i = j
    · subst i
      simp only [Function.update_self,List.mem_append,List.mem_singleton] at hu
      rcases hu with hu | hu
      · exact .inl hu
      · exact .inr (.inr ⟨rfl,m,hu,hm⟩)
    · left
      simpa [Function.update_of_ne hi] using hu
  | apply _ j w us es hlog hes =>
    left
    by_cases hi : i = j
    · subst i
      simp only [Function.update_self] at hu
      simp [hlog,hu]
    · simpa [Function.update_of_ne hi] using hu

theorem Step.lookup_cache (h : Step capacity p a s t) {i : ι} {k : κ} {v : ν}
    (hk : (t.cache i).lookup k = some v) : (s.cache i).lookup k = some v ∨ a = .put k v ∨
      ∃ u ∈ s.log i, ∃ es, u.Enumerates es ∧ ⟨k,v⟩ ∈ es := by
  cases h with
  | put _ j w =>
    by_cases hi : i = p
    · subst i
      simp only [Function.update_self] at hk
      by_cases hkj : k = j
      · subst k
        rw [lookup_put_self,Option.some.injEq] at hk
        exact .inr (.inl (by rw [hk]))
      · exact .inl (lookup_put_ne hkj hk)
    · left
      simpa [Function.update_of_ne hi] using hk
  | get _ j k' =>
    left
    by_cases hi : i = j
    · subst i
      simpa using hk
    · simpa [Function.update_of_ne hi] using hk
  | ship _ j m hj hm => exact .inl hk
  | apply _ j u us es hlog hes =>
    by_cases hi : i = j
    · subst i
      simp only [Function.update_self] at hk
      rcases lookup_putAll es hk with hmem | hold
      · exact .inr (.inr ⟨u,by simp [hlog],es,hes,hmem⟩)
      · exact .inl hold
    · left
      simpa [Function.update_of_ne hi] using hk

/-! ### Views of the caches -/

section View

variable {X : Type*} (view : Assoc κ ν → X) (act : Update κ ν → X → X)

/-- What is left of its log takes each node to where the primary is. -/
structure Replays (p : ι) (s : State ι κ ν) : Prop where
  primary : s.log p = []
  replay : ∀ i, (s.log i).foldl (fun x u => act u x) (view (s.cache i)) = view (s.cache p)

omit [DecidableEq ι] [DecidableEq κ] in
theorem replays_empty (p : ι) : Replays view act p (State.empty : State ι κ ν) := ⟨rfl,fun _ => rfl⟩

variable {view act}

omit [DecidableEq ι] [DecidableEq κ] in
theorem Replays.caughtUp (h : Replays view act p s) {i : ι} (hi : s.log i = []) :
    view (s.cache i) = view (s.cache p) := by
  have hreplay := h.replay i
  rwa [hi] at hreplay

/-- A step keeps the replay right when the view of a cache changes as its action says. -/
theorem Replays.step (h : Replays view act p s) (hstep : Step capacity p a s t)
    (hput : ∀ k v, a = .put k v →
      view (put capacity k v (s.cache p)) = act (.put ⟨k,v⟩) (view (s.cache p)))
    (hget : ∀ i k, a = .get i k → view (RecencyCache.get k (s.cache i)).1 = view (s.cache i))
    (hship : ∀ i, a = .ship i → ∀ m : Assoc κ ν, (∀ k, m.lookup k = (s.cache p).lookup k) →
      act (.snapshot m) (view (s.cache p)) = view (s.cache p))
    (happly : ∀ i u es, u ∈ s.log i → u.Enumerates es →
      view (putAll capacity es (s.cache i)) = act u (view (s.cache i))) :
    Replays view act p t := by
  cases hstep with
  | put _ k v =>
    refine ⟨by simpa using h.primary,fun i => ?_⟩
    dsimp only
    rw [Function.update_self,hput k v rfl]
    by_cases hi : i = p
    · subst i
      rw [if_pos rfl,h.primary,Function.update_self]
      exact hput k v rfl
    · rw [if_neg hi,Function.update_of_ne hi,List.foldl_append,h.replay i]
      rfl
  | get _ j k =>
    have hview : ∀ i, view (Function.update s.cache j (RecencyCache.get k (s.cache j)).1 i) =
        view (s.cache i) := by
      intro i
      by_cases hi : i = j
      · subst i
        rw [Function.update_self,hget j k rfl]
      · rw [Function.update_of_ne hi]
    refine ⟨h.primary,fun i => ?_⟩
    dsimp only
    rw [hview,hview]
    exact h.replay i
  | ship _ j m hj hm =>
    refine ⟨by simpa [Function.update_of_ne (Ne.symm hj)] using h.primary,fun i => ?_⟩
    by_cases hi : i = j
    · subst i
      dsimp only
      rw [Function.update_self,List.foldl_append,h.replay j]
      exact hship j rfl m hm
    · dsimp only
      rw [Function.update_of_ne hi]
      exact h.replay i
  | apply _ j u us es hlog hes =>
    have hj : p ≠ j := by
      rintro rfl
      simp [h.primary] at hlog
    refine ⟨by simpa [Function.update_of_ne hj] using h.primary,fun i => ?_⟩
    dsimp only
    rw [Function.update_of_ne hj]
    by_cases hi : i = j
    · subst i
      have hreplay := h.replay j
      rw [hlog,List.foldl_cons] at hreplay
      rw [Function.update_self,Function.update_self,
        happly j u es (by simp [hlog]) hes,hreplay]
    · rw [Function.update_of_ne hi,Function.update_of_ne hi]
      exact h.replay i

end View

/-! ### Maps: room for every key -/

def Update.onMap : Update κ ν → (κ → Option ν) → κ → Option ν
  | .put e, f => Function.update f e.1 (some e.2)
  | .snapshot m, f => fun k => (m.lookup k).or (f k)

structure Roomy (ks : Finset κ) (s : State ι κ ν) : Prop where
  caches : ∀ i, Within ks (s.cache i)
  updates : ∀ i, ∀ u ∈ s.log i, ∀ es, u.Enumerates es → ∀ e ∈ es, e.1 ∈ ks

variable {ks : Finset κ}

omit [DecidableEq ι] in
theorem assign_perm {es : List (Σ _ : κ, ν)} {m : Assoc κ ν} (h : es.Perm m.entries)
    (f : κ → Option ν) : assign es f = fun k => (m.lookup k).or (f k) := by
  have hn : es.NodupKeys := (List.perm_nodupKeys h).mpr m.nodupKeys
  have hlookup : ∀ k, m.lookup k = es.dlookup k := fun k =>
    (List.perm_dlookup k hn h).symm
  funext k
  rw [hlookup]
  clear h hlookup
  induction es generalizing f with
  | nil => simp
  | cons e es ih =>
    obtain ⟨hnot,hrest⟩ := List.nodupKeys_cons.mp hn
    rw [assign_cons,ih _ hrest]
    obtain ⟨j,v⟩ := e
    by_cases hk : k = j
    · subst k
      have hnone : es.dlookup j = none := List.dlookup_eq_none.mpr hnot
      simp [hnone]
    · rw [Function.update_of_ne hk,List.dlookup_cons_ne _ _ hk]

omit [DecidableEq ι] in
theorem Update.onMap_eq_assign {u : Update κ ν} {es : List (Σ _ : κ, ν)} (h : u.Enumerates es)
    (f : κ → Option ν) : assign es f = u.onMap f := by
  cases u with
  | put e =>
    obtain rfl : es = [e] := h
    rfl
  | snapshot m => exact assign_perm h f

omit [DecidableEq ι] [DecidableEq κ] in
theorem Roomy.empty (ks : Finset κ) : Roomy ks (State.empty : State ι κ ν) where
  caches := by
    intro i k hk
    exact absurd hk (AList.notMem_empty k)
  updates := by simp [State.empty]

theorem Roomy.step (h : Roomy ks s) (hstep : Step capacity p a s t)
    (hkeys : ∀ k v, a = .put k v → k ∈ ks) : Roomy ks t where
  caches := by
    intro i
    apply within_of_lookup
    intro k v hk
    rcases hstep.lookup_cache hk with hold | ha | ⟨u,hu,es,hes,hmem⟩
    · exact (h.caches i).lookup hold
    · exact hkeys k v ha
    · exact h.updates i u hu es hes _ hmem
  updates := by
    intro i u hu es hes e he
    rcases hstep.mem_log hu with hold | ⟨k,v,ha,rfl⟩ | ⟨_,m,rfl,hm⟩
    · exact h.updates i u hold es hes e he
    · obtain rfl : es = [⟨k,v⟩] := hes
      obtain rfl := List.mem_singleton.mp he
      exact hkeys k v ha
    · have hperm : es.Perm m.entries := hes
      have hlookup : m.lookup e.1 = some e.2 := AList.mem_lookup_iff.mpr (hperm.mem_iff.mp he)
      rw [hm] at hlookup
      exact (h.caches p).lookup hlookup

/-- While the keys fit, what is left of the log takes each map to that of the primary. -/
theorem Steps.replays_maps {as : List (Action ι κ ν)} (hrun : Steps capacity p as .empty s)
    (hcard : ks.card ≤ capacity) (hkeys : ∀ k v, .put k v ∈ as → k ∈ ks) :
    Roomy ks s ∧ Replays (fun l : Assoc κ ν => l.lookup) Update.onMap p s := by
  generalize hr : (State.empty : State ι κ ν) = r at hrun
  induction hrun with
  | nil =>
    subst hr
    exact ⟨Roomy.empty ks,replays_empty _ _ p⟩
  | @snoc as a r s t _ hstep ih =>
    obtain ⟨hroomy,hreplays⟩ := ih (fun k v hmem => hkeys k v (List.mem_cons_of_mem _ hmem)) hr
    have hkey : ∀ k v, a = .put k v → k ∈ ks := by
      rintro k v rfl
      exact hkeys k v List.mem_cons_self
    refine ⟨hroomy.step hstep hkey,hreplays.step hstep ?_ ?_ ?_ ?_⟩
    · intro k v ha
      exact lookup_put_within hcard (hroomy.caches p) (hkey k v ha) v
    · intro i k _
      funext j
      exact lookup_get k j (s.cache i)
    · intro i _ m hm
      funext k
      simp [Update.onMap,hm]
    · intro i u es hu hes
      rw [lookup_putAll_within hcard es (hroomy.caches i) (hroomy.updates i u hu es hes),
        u.onMap_eq_assign hes]

/-! ### Caches: puts only -/

/-- What an update does to a cache; the order a snapshot would leave is unknown. -/
def Update.onCache (capacity : ℕ) : Update κ ν → Assoc κ ν → Assoc κ ν
  | .put e, l => RecencyCache.put capacity e.1 e.2 l
  | .snapshot _, l => l

/-- While nothing is read and no snapshot is sent, it takes each cache to that of the primary,
the order of the entries included. -/
theorem Steps.replays_caches {as : List (Action ι κ ν)} (hrun : Steps capacity p as .empty s)
    (hget : ∀ i k, .get i k ∉ as) (hship : ∀ i, .ship i ∉ as) :
    (∀ i, ∀ u ∈ s.log i, ∃ e, u = .put e) ∧
      Replays (fun l : Assoc κ ν => l) (Update.onCache capacity) p s := by
  generalize hr : (State.empty : State ι κ ν) = r at hrun
  induction hrun with
  | nil =>
    subst hr
    exact ⟨by simp [State.empty],replays_empty _ _ p⟩
  | @snoc as a r s t _ hstep ih =>
    obtain ⟨hputs,hreplays⟩ := ih (fun i k hmem => hget i k (List.mem_cons_of_mem _ hmem))
      (fun i hmem => hship i (List.mem_cons_of_mem _ hmem)) hr
    have hlater : ∀ i, ∀ u ∈ t.log i, ∃ e, u = .put e := by
      intro i u hu
      rcases hstep.mem_log hu with hold | ⟨k,v,_,rfl⟩ | ⟨rfl,_⟩
      · exact hputs i u hold
      · exact ⟨_,rfl⟩
      · exact absurd List.mem_cons_self (hship i)
    refine ⟨hlater,hreplays.step hstep ?_ ?_ ?_ ?_⟩
    · intro k v _
      rfl
    · rintro i k rfl
      exact absurd List.mem_cons_self (hget i k)
    · rintro i rfl
      exact absurd List.mem_cons_self (hship i)
    · intro i u es hu hes
      obtain ⟨e,rfl⟩ := hputs i u hu
      obtain rfl : es = [e] := hes
      rfl

end LogShipping
end Kivi
