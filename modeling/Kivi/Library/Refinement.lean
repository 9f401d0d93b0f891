import Mathlib

/-! Forward simulation of a specification by an implementation that may fault.
Both answer a list of operations; the implementation refines the specification when
it never faults and gives the same answers. -/
namespace Kivi
namespace Refinement

variable {ε σ α ρ φ : Type*}

def runAll (step : ε → σ → Except φ (σ × ρ)) : List ε → σ → Except φ (σ × List ρ)
  | [], s => .ok (s,[])
  | e::es, s => do
    let r ← step e s
    let rs ← runAll step es r.1
    return (rs.1,r.2::rs.2)

def specAll (spec : ε → α → α × ρ) : List ε → α → α × List ρ
  | [], a => (a,[])
  | e::es, a =>
    let r := spec e a
    let rs := specAll spec es r.1
    (rs.1,r.2::rs.2)

/-- States reached by operations that do not fault. -/
inductive Reaches (step : ε → σ → Except φ (σ × ρ)) (start : σ) : σ → Prop
  | start : Reaches step start start
  | next {s e t r} : Reaches step start s → step e s = .ok (t,r) → Reaches step start t

/-- Every answer of the specification is given from related states, and the relation is kept. -/
def Simulates (step : ε → σ → Except φ (σ × ρ)) (spec : ε → α → α × ρ) (R : σ → α → Prop) : Prop :=
  ∀ e s a, R s a → ∃ t, step e s = .ok (t,(spec e a).2) ∧ R t (spec e a).1

variable {step : ε → σ → Except φ (σ × ρ)} {spec : ε → α → α × ρ} {R : σ → α → Prop}

theorem Simulates.runAll (h : Simulates step spec R) (es : List ε) {s : σ} {a : α} (hr : R s a) :
    ∃ t, runAll step es s = .ok (t,(specAll spec es a).2) ∧ R t (specAll spec es a).1 := by
  induction es generalizing s a with
  | nil => exact ⟨s,rfl,hr⟩
  | cons e es ih =>
    obtain ⟨t,ht,htr⟩ := h e s a hr
    obtain ⟨u,hu,hur⟩ := ih htr
    refine ⟨u,?_,hur⟩
    simp only [Refinement.runAll,ht,specAll]
    change (Refinement.runAll step es t >>= fun rs => pure (rs.1,_::rs.2)) = _
    rw [hu]
    rfl

/-- Every reached state is related to some state of the specification. -/
theorem Simulates.reaches (h : Simulates step spec R) {start s : σ} {a : α} (h₀ : R start a)
    (hs : Reaches step start s) : ∃ b, R s b := by
  induction hs with
  | start => exact ⟨a,h₀⟩
  | @next s e t r _ hstep ih =>
    obtain ⟨b,hb⟩ := ih
    obtain ⟨u,hu,hur⟩ := h e s b hb
    have he : t = u := by
      have := hstep.symm.trans hu
      simp only [Except.ok.injEq,Prod.mk.injEq] at this
      exact this.1
    exact ⟨_,he ▸ hur⟩

theorem Reaches.runAll {start s t : σ} {es : List ε} {rs : List ρ} (hs : Reaches step start s)
    (hrun : Refinement.runAll step es s = .ok (t,rs)) : Reaches step start t := by
  induction es generalizing s rs with
  | nil =>
    cases hrun
    exact hs
  | cons e es ih =>
    rw [Refinement.runAll] at hrun
    cases hone : step e s with
    | error f =>
      rw [hone] at hrun
      cases hrun
    | ok r =>
      rw [hone] at hrun
      change (Refinement.runAll step es r.1 >>= fun rs => pure (rs.1,r.2::rs.2)) = _ at hrun
      cases hrest : Refinement.runAll step es r.1 with
      | error f =>
        rw [hrest] at hrun
        cases hrun
      | ok u =>
        rw [hrest] at hrun
        cases hrun
        exact ih (hs.next hone) hrest

/-! ### Two specifications -/

/-- Two specifications whose steps keep a relation and give related answers run in step. -/
theorem specAll_related {β ρ' : Type*} {spec' : ε → β → β × ρ'} {R : α → β → Prop}
    {S : ρ → ρ' → Prop}
    (h : ∀ e a b, R a b → R (spec e a).1 (spec' e b).1 ∧ S (spec e a).2 (spec' e b).2)
    (es : List ε) {a : α} {b : β} (hr : R a b) :
    R (specAll spec es a).1 (specAll spec' es b).1 ∧
      List.Forall₂ S (specAll spec es a).2 (specAll spec' es b).2 := by
  induction es generalizing a b with
  | nil => exact ⟨hr,.nil⟩
  | cons e es ih =>
    have hone := h e a b hr
    have hrest := ih hone.1
    exact ⟨hrest.1,.cons hone.2 hrest.2⟩

/-- A property of the state and of the calls answered so far, the latest one first, that
every step keeps holds after a whole run. -/
theorem specAll_history {I : List (ε × ρ) → α → Prop} (es : List ε)
    (h : ∀ e ∈ es, ∀ history a, I history a → I ((e,(spec e a).2)::history) (spec e a).1)
    {history : List (ε × ρ)} {a : α} (h₀ : I history a) :
    I ((es.zip (specAll spec es a).2).reverse ++ history) (specAll spec es a).1 := by
  induction es generalizing history a with
  | nil => exact h₀
  | cons e es ih =>
    have hone := h e List.mem_cons_self history a h₀
    have hrest := ih (fun e he => h e (List.mem_cons_of_mem _ he)) hone
    simpa [specAll] using hrest

end Refinement
end Kivi
