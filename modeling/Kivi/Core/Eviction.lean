import Kivi.Core.LRURefinement
import Kivi.Library.Inclusion
import Kivi.Library.RecencyTrace

/-! What the store keeps, in terms of its calls and of its capacity. -/
namespace Kivi

open RecencyCache (Op Answer Submap Recent since touched written)

namespace LRUStore

/-- After any calls a key is found exactly when it was touched, was not removed since, and
fewer than `capacity` other keys were touched and kept at every moment since; its value is
that of its last put. The key an overflowing put evicts is the least recently touched. -/
theorem get_iff_recent {capacity : ℕ} (hc : 1 ≤ capacity) (ops : List (Op Bytes Bytes))
    (hops : ∀ op ∈ ops, op.Keyed) :
    ∃ s answers, Refinement.runAll step ops (new capacity) = .ok (s,answers) ∧
      (∀ k, ∃ s' found, s.get k = .ok (s',found) ∧
        (found.isSome = true ↔ Recent capacity k (ops.zip answers).reverse) ∧
        ∀ v, found = some v → (ops.zip answers).reverse.findSome? (written k) = some v) ∧
      ∀ k v, k ∉ s.store.kv → s.lruList.size = capacity →
        ∃ s' e, s.put k v = .ok s' ∧ e ∈ s.store.kv ∧
          (∀ j, j ∈ s'.store.kv ↔ j = k ∨ j ∈ s.store.kv ∧ j ≠ e) ∧
          ∀ j ∈ s.store.kv, j ≠ e →
            ∃ c ∈ since e (ops.zip answers).reverse, touched c = some j := by
  obtain ⟨s,hs,hcap,hr⟩ := run_spec hc ops
  have hrec := RecencyCache.recorded_of_run hc hops
  generalize Refinement.specAll (RecencyCache.step capacity) ops ∅ = run at hs hr hrec
  refine ⟨s,run.2,hs,fun k => ?_,fun k v hk hfull => ?_⟩
  · obtain ⟨s',hget,_⟩ := get_spec hr k
    rw [RecencyCache.get_answer] at hget
    refine ⟨s',run.1.lookup k,hget,?_,fun v hv => hrec.value k v hv⟩
    rw [AList.lookup_isSome]
    exact hrec.mem_iff k
  · have hk' : k ∉ run.1 := fun h => hk ((hr.mem_store k).mpr h)
    have hsize : RecencyCache.size run.1 = capacity := hr.size_list.symm.trans hfull
    obtain ⟨e,he,hput,holdest⟩ := hrec.evicted hc hsize hk' v
    obtain ⟨s',hs',_,hr'⟩ := put_spec (hcap.symm ▸ hc) hr k v
    rw [hcap] at hr'
    refine ⟨s',e,hs',(hr.mem_store e).mpr he,fun j => ?_,fun j hj hje => ?_⟩
    · rw [hr'.mem_store,hr.mem_store]
      exact hput j
    · exact holdest j ((hr.mem_store j).mp hj) hje

/-- A store of one key, after a put of it and a miss of another one. -/
theorem get_iff_recent_one :
    ∃ s answers, Refinement.runAll step [.put [1] [10],.get [2]] (new 1) = .ok (s,answers) ∧
      (∀ k, ∃ s' found, s.get k = .ok (s',found) ∧
        (found.isSome = true ↔
          Recent 1 k ([Op.put [1] [10],Op.get [2]].zip answers).reverse) ∧
        ∀ v, found = some v →
          ([Op.put [1] [10],Op.get [2]].zip answers).reverse.findSome? (written k) = some v) ∧
      ∀ k v, k ∉ s.store.kv → s.lruList.size = 1 →
        ∃ s' e, s.put k v = .ok s' ∧ e ∈ s.store.kv ∧
          (∀ j, j ∈ s'.store.kv ↔ j = k ∨ j ∈ s.store.kv ∧ j ≠ e) ∧
          ∀ j ∈ s.store.kv, j ≠ e →
            ∃ c ∈ since e ([Op.put [1] [10],Op.get [2]].zip answers).reverse,
              touched c = some j :=
  get_iff_recent (by decide) [.put [1] [10],.get [2]] (by simp [Op.Keyed])

/-- Of two stores that run the same calls the smaller one holds part of what the larger one
holds after every prefix, and answers no more. -/
theorem contents_monotone {small large : ℕ} (hs : 1 ≤ small) (hle : small ≤ large)
    (ops : List (Op Bytes Bytes)) :
    (∃ s answers s' answers', Refinement.runAll step ops (new small) = .ok (s,answers) ∧
      Refinement.runAll step ops (new large) = .ok (s',answers') ∧
      List.Forall₂ Answer.Below answers answers') ∧
    ∀ before, before <+: ops → ∃ s answers s' answers',
      Refinement.runAll step before (new small) = .ok (s,answers) ∧
      Refinement.runAll step before (new large) = .ok (s',answers') ∧
      Submap s.getKvBatch.toFinmap s'.getKvBatch.toFinmap := by
  refine ⟨?_,fun before _ => ?_⟩
  · obtain ⟨s,hrun,_,_⟩ := run_spec hs ops
    obtain ⟨s',hrun',_,_⟩ := run_spec (hs.trans hle) ops
    have hbelow := (RecencyCache.included_of_run hs hle ops).2
    exact ⟨s,_,s',_,hrun,hrun',hbelow⟩
  · obtain ⟨s,hrun,_,hr⟩ := run_spec hs before
    obtain ⟨s',hrun',_,hr'⟩ := run_spec (hs.trans hle) before
    have hincluded := (RecencyCache.included_of_run hs hle before).1
    refine ⟨s,_,s',_,hrun,hrun',fun k v hk => ?_⟩
    rw [Finmap.lookup_toFinmap] at hk ⊢
    exact (hr'.lookup k).trans (hincluded.lookup ((hr.lookup k).symm.trans hk))

/-- Capacities one and two, with a get that only the larger store hits. -/
theorem contents_monotone_two :
    (∃ s answers s' answers',
      Refinement.runAll step [.put [1] [10],.put [2] [20],.get [1]] (new 1) = .ok (s,answers) ∧
      Refinement.runAll step [.put [1] [10],.put [2] [20],.get [1]] (new 2) =
        .ok (s',answers') ∧
      List.Forall₂ Answer.Below answers answers') ∧
    ∀ before, before <+: [.put [1] [10],.put [2] [20],.get [1]] → ∃ s answers s' answers',
      Refinement.runAll step before (new 1) = .ok (s,answers) ∧
      Refinement.runAll step before (new 2) = .ok (s',answers') ∧
      Submap s.getKvBatch.toFinmap s'.getKvBatch.toFinmap :=
  contents_monotone (by decide) (by decide) [.put [1] [10],.put [2] [20],.get [1]]

end LRUStore

/-! ### Every admitted capacity -/

def RecencyCache.Op.Inserts {κ ν : Type*} : Op κ ν → Prop
  | .put _ _ => True
  | .setKvBatch m => m.entries ≠ []
  | .get _ | .remove _ | .getKvBatch => False

def KiviTree.step : Op Bytes Bytes → KiviTree → Except LinkedList.Fault (KiviTree × Answer Bytes Bytes)
  | .put k v, t => do return (← t.put k v,.done)
  | .get k, t => do
    let (t,v) ← t.get k
    return (t,.value v)
  | .remove k, t => do
    let (t,b) ← t.remove k
    return (t,.removed b)
  | .getKvBatch, t => .ok (t,.batch t.getKvBatch.toFinmap)
  | .setKvBatch m, t => do return (← t.setKvBatch m,.done)

/-- After every prefix of the calls there was no fault, and neither the list nor the hash
store holds more than `capacity` keys. -/
def EvictsSafely {σ : Type*}
    (step : Op Bytes Bytes → σ → Except LinkedList.Fault (σ × Answer Bytes Bytes))
    (engine : σ → LRUStore) (start : σ) (capacity : ℕ) (ops : List (Op Bytes Bytes)) : Prop :=
  ∀ before, before <+: ops → ∃ s answers, Refinement.runAll step before start = .ok (s,answers) ∧
    (engine s).lruList.size ≤ capacity ∧ RecencyCache.size (engine s).getKvBatch ≤ capacity

namespace LRUStore

variable {ops : List (Op Bytes Bytes)}

theorem step_new (capacity : ℕ) {op : Op Bytes Bytes} (h : ¬ op.Inserts) :
    ∃ answer, step op (new capacity) = .ok (new capacity,answer) := by
  cases op with
  | put k v => exact (h trivial).elim
  | get k => exact ⟨.value none,rfl⟩
  | remove k => exact ⟨.removed false,rfl⟩
  | getKvBatch => exact ⟨_,rfl⟩
  | setKvBatch m =>
    have hm : m.entries = [] := not_not.mp h
    exact ⟨.done,by simp only [step,setKvBatch,hm]; rfl⟩

theorem runAll_new (capacity : ℕ) (h : ∀ op ∈ ops, ¬ op.Inserts) :
    ∃ answers, Refinement.runAll step ops (new capacity) = .ok (new capacity,answers) := by
  induction ops with
  | nil => exact ⟨[],rfl⟩
  | cons op ops ih =>
    obtain ⟨answer,hop⟩ := step_new capacity (h op List.mem_cons_self)
    obtain ⟨answers,hops⟩ := ih fun op hop => h op (List.mem_cons_of_mem _ hop)
    refine ⟨answer::answers,?_⟩
    simp only [Refinement.runAll,hop,except_bind_ok,hops,except_pure]

/-- Without any room the first entry asks for the last element of an empty list. -/
theorem step_full {op : Op Bytes Bytes} (h : op.Inserts) :
    step op (new 0) = .error .backOfEmpty := by
  cases op with
  | put k v => rfl
  | get k | remove k | getKvBatch => exact h.elim
  | setKvBatch m =>
    obtain ⟨e,es,hm⟩ := List.exists_cons_of_ne_nil h
    simp only [step,setKvBatch,hm]
    rfl

theorem runAll_full (h : ∃ op ∈ ops, op.Inserts) :
    Refinement.runAll step ops (new 0) = .error .backOfEmpty := by
  induction ops with
  | nil => simp at h
  | cons op ops ih =>
    by_cases hop : op.Inserts
    · simp only [Refinement.runAll,step_full hop]
      rfl
    · obtain ⟨answer,hstep⟩ := step_new 0 hop
      have hrest : ∃ op ∈ ops, op.Inserts := (List.or_exists_of_exists_mem_cons h).resolve_left hop
      simp only [Refinement.runAll,hstep,except_bind_ok,ih hrest]
      rfl

theorem evictsSafely_iff_store (capacity : ℕ) (ops : List (Op Bytes Bytes)) :
    EvictsSafely step id (new capacity) capacity ops ↔
      1 ≤ capacity ∨ ∀ op ∈ ops, ¬ op.Inserts := by
  constructor
  · intro h
    by_contra hnot
    obtain ⟨hzero,hinserts⟩ := not_or.mp hnot
    obtain rfl : capacity = 0 := by omega
    obtain ⟨s,answers,hrun,_⟩ := h ops List.prefix_rfl
    rw [runAll_full (by simpa using hinserts)] at hrun
    cases hrun
  · rintro (hc | hnone) before hbefore
    · obtain ⟨s,hrun,rfl,hr⟩ := run_spec hc before
      have hlist := hr.size_list.trans_le hr.bounded
      have hstore := hr.size_store.trans_le hr.bounded
      exact ⟨s,_,hrun,hlist,hstore⟩
    · obtain ⟨answers,hrun⟩ := runAll_new capacity fun op hop => hnone op (hbefore.subset hop)
      exact ⟨new capacity,answers,hrun,Nat.zero_le _,Nat.zero_le _⟩

end LRUStore

namespace KiviTree

variable {ops : List (Op Bytes Bytes)}

theorem step_eq (op : Op Bytes Bytes) (t : KiviTree) :
    step op t = (LRUStore.step op t.engine).map fun r => (⟨r.1⟩,r.2) := by
  cases op with
  | put k v =>
    simp only [step,LRUStore.step,put]
    cases t.engine.put k v <;> rfl
  | get k =>
    simp only [step,LRUStore.step,get]
    cases t.engine.get k <;> rfl
  | remove k =>
    simp only [step,LRUStore.step,remove]
    cases t.engine.remove k <;> rfl
  | getKvBatch => rfl
  | setKvBatch m =>
    simp only [step,LRUStore.step,setKvBatch]
    cases t.engine.setKvBatch m <;> rfl

theorem runAll_eq (ops : List (Op Bytes Bytes)) (t : KiviTree) :
    Refinement.runAll step ops t =
      (Refinement.runAll LRUStore.step ops t.engine).map fun r => (⟨r.1⟩,r.2) := by
  induction ops generalizing t with
  | nil => rfl
  | cons op ops ih =>
    simp only [Refinement.runAll,step_eq]
    cases LRUStore.step op t.engine with
    | error fault => rfl
    | ok r =>
      simp only [Except.map,except_bind_ok,ih]
      cases Refinement.runAll LRUStore.step ops r.1 <;> rfl

theorem evictsSafely_iff_engine (capacity : ℕ) :
    EvictsSafely step engine (new capacity) capacity ops ↔
      EvictsSafely LRUStore.step id (LRUStore.new capacity) capacity ops := by
  refine forall₂_congr fun before _ => ?_
  rw [runAll_eq]
  change (∃ s answers, (Refinement.runAll LRUStore.step before (LRUStore.new capacity)).map _ =
    .ok (s,answers) ∧ _) ↔ _
  cases Refinement.runAll LRUStore.step before (LRUStore.new capacity) with
  | error fault => simp [Except.map]
  | ok r =>
    constructor
    · rintro ⟨t,answers,ht,hsize⟩
      cases ht
      exact ⟨r.1,r.2,rfl,hsize⟩
    · rintro ⟨s,answers,hs,hsize⟩
      cases hs
      exact ⟨⟨s⟩,answers,rfl,hsize⟩

end KiviTree

/-- A store or tree of any capacity evicts safely and keeps its bound exactly when it has
room for one key or is never asked to insert one. -/
theorem evictsSafely_iff (capacity : ℕ) (ops : List (Op Bytes Bytes)) :
    (EvictsSafely LRUStore.step id (LRUStore.new capacity) capacity ops ↔
      1 ≤ capacity ∨ ∀ op ∈ ops, ¬ op.Inserts) ∧
    (EvictsSafely KiviTree.step KiviTree.engine (KiviTree.new capacity) capacity ops ↔
      1 ≤ capacity ∨ ∀ op ∈ ops, ¬ op.Inserts) := by
  have hstore := LRUStore.evictsSafely_iff_store capacity ops
  exact ⟨hstore,(KiviTree.evictsSafely_iff_engine capacity).trans hstore⟩

/-- The first put into a store of capacity zero evicts from an empty list. -/
theorem not_evictsSafely :
    Refinement.runAll LRUStore.step [.put [1] [10]] (LRUStore.new 0) = .error .backOfEmpty ∧
    ¬ ∀ capacity ops, EvictsSafely LRUStore.step id (LRUStore.new capacity) capacity ops := by
  have hfault : Refinement.runAll LRUStore.step [.put [1] [10]] (LRUStore.new 0) =
      .error .backOfEmpty := rfl
  refine ⟨hfault,fun h => ?_⟩
  obtain ⟨s,answers,hrun,_⟩ := h 0 [.put [1] [10]] _ List.prefix_rfl
  rw [hfault] at hrun
  cases hrun

end Kivi
