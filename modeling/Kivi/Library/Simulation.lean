import Kivi.Library.Transition

/-! Forward simulation between two event-driven machines: some steps of one are followed by a
step of the other, and the others leave the related state related. Where all of them are followed
and nothing else can happen, the machines execute the same events. -/
namespace Kivi
namespace Transition

variable {σ ε τ δ : Type*}

/-- A step of one machine and the step of the other that follows it. -/
structure Follows (R : σ → τ → Prop) (E : ε → δ → Prop) (y : Taken τ δ) (x : Taken σ ε) : Prop where
  pre : R x.pre y.pre
  event : E x.event y.event
  post : R x.post y.post

variable {step : σ → ε → Option σ} {step' : τ → δ → Option τ} {start s : σ} {start' : τ}
  {R : σ → τ → Prop} {E : ε → δ → Prop} {history : List (Taken σ ε)}

/-- Where every step of a run can be followed, or passed over when it does not count, the run can
be followed; the steps that follow stand in the order of the steps that count. -/
theorem Run.simulated (counts : Taken σ ε → Bool) (h : Run step start history s)
    (h₀ : R start start')
    (hpass : ∀ x ∈ history, ∀ t, counts x = false → step x.pre x.event = some x.post →
      R x.pre t → R x.post t)
    (hstep : ∀ x ∈ history, ∀ t, counts x = true → step x.pre x.event = some x.post →
      R x.pre t → ∃ d t', E x.event d ∧ step' t d = some t' ∧ R x.post t') :
    ∃ history' s', Run step' start' history' s' ∧ R s s' ∧
      List.Forall₂ (Follows R E) history' (history.filter counts) := by
  induction h with
  | nil => exact ⟨[],start',.nil,h₀,.nil⟩
  | @snoc history s e t _ hs ih =>
    obtain ⟨history',s',hrun,hr,hall⟩ := ih (fun x hx => hpass x (List.mem_cons_of_mem _ hx))
      (fun x hx => hstep x (List.mem_cons_of_mem _ hx))
    by_cases hcounts : counts ⟨s,e,t⟩ = true
    · obtain ⟨d,t',he,hnext,hr'⟩ := hstep _ List.mem_cons_self s' hcounts hs hr
      refine ⟨_,t',hrun.snoc hnext,hr',?_⟩
      rw [List.filter_cons_of_pos hcounts]
      exact .cons ⟨hr,he,hr'⟩ hall
    · have hr' := hpass _ List.mem_cons_self s' (by simpa using hcounts) hs hr
      refine ⟨history',s',hrun,hr',?_⟩
      rwa [List.filter_cons_of_neg hcounts]

/-! ### The same events -/

section Executions

variable {α β γ ζ : Type*} {P : α → β → Prop} {Q : γ → ζ → Prop} {a : Option α} {b : Option β}

theorem rel_bind {f : α → Option γ} {g : β → Option ζ} (h : Option.Rel P a b)
    (hfg : ∀ x y, a = some x → b = some y → P x y → Option.Rel Q (f x) (g y)) :
    Option.Rel Q (a.bind f) (b.bind g) := by
  cases h with
  | none => exact .none
  | some hp => exact hfg _ _ rfl rfl hp

theorem map_eq_of_rel {f : α → γ} {g : β → γ} (h : Option.Rel P a b)
    (hfg : ∀ x y, P x y → f x = g y) : a.map f = b.map g := by
  cases h with
  | none => rfl
  | some hp => exact congrArg some (hfg _ _ hp)

/-- Machines whose steps on the same event are possible in the same related states, and keep them
related along every run of the second one, execute the same lists of events. -/
theorem exec_related {step' : τ → ε → Option τ} {history : List (Taken τ ε)} {t : τ} {es : List ε}
    (hstep : ∀ e ∈ es, ∀ history s t, Run step' start' history t → R s t →
      Option.Rel R (step s e) (step' t e)) (hrun : Run step' start' history t) (h : R s t) :
    Option.Rel R (exec step s es) (exec step' t es) := by
  induction es generalizing s t history with
  | nil => exact .some h
  | cons e es ih =>
    have hone := hstep e List.mem_cons_self history s t hrun h
    exact rel_bind hone fun _ _ _ ht hr =>
      ih (fun e he => hstep e (List.mem_cons_of_mem _ he)) (hrun.snoc ht) hr

end Executions

/-! ### Related lists -/

section Related

variable {α β : Type*} {P : α → β → Prop} {l : List α} {l' : List β}

theorem getElem?_of_forall₂ (h : List.Forall₂ P l l') {n : ℕ} {a : α} (ha : l[n]? = some a) :
    ∃ b, l'[n]? = some b ∧ P a b := by
  induction h generalizing n with
  | nil => simp at ha
  | cons hp _ ih =>
    cases n with
    | zero =>
      obtain rfl := Option.some.inj ha
      exact ⟨_,rfl,hp⟩
    | succ n => exact ih ha

theorem exists_of_forall₂ (h : List.Forall₂ P l l') {a : α} (ha : a ∈ l) : ∃ b ∈ l', P a b := by
  obtain ⟨n,hn⟩ := List.mem_iff_getElem?.mp ha
  obtain ⟨b,hb,hp⟩ := getElem?_of_forall₂ h hn
  exact ⟨b,List.mem_of_getElem? hb,hp⟩

end Related

end Transition
end Kivi
