import Mathlib

/-! Runs of an event-driven state machine, with the steps taken so far as history.
An event that is not enabled in a state has no successor there. -/
namespace Kivi
namespace Transition

variable {σ ε : Type*}

/-- One step that a run has taken. -/
structure Taken (σ ε : Type*) where
  pre : σ
  event : ε
  post : σ

/-- `Run step start history s`: the steps of `history`, the latest one first, lead
from `start` to `s`. -/
inductive Run (step : σ → ε → Option σ) (start : σ) : List (Taken σ ε) → σ → Prop
  | nil : Run step start [] start
  | snoc {history s e t} : Run step start history s → step s e = some t →
      Run step start (⟨s,e,t⟩ :: history) t

/-- The machine that takes only the steps that pass a test. -/
def guarded (p : σ → ε → Bool) (step : σ → ε → Option σ) (s : σ) (e : ε) : Option σ :=
  if p s e then step s e else none

def exec (step : σ → ε → Option σ) : σ → List ε → Option σ
  | s, [] => some s
  | s, e::es => (step s e).bind fun t => exec step t es

namespace Run

variable {step : σ → ε → Option σ} {start s t : σ} {history : List (Taken σ ε)}

theorem taken_step (h : Run step start history s) {x : Taken σ ε} (hx : x ∈ history) :
    step x.pre x.event = some x.post ∧
      ∃ before, Run step start before x.pre ∧ x::before <:+ history := by
  induction h with
  | nil => simp at hx
  | @snoc history s e t hrun hstep ih =>
    rcases List.mem_cons.mp hx with rfl | hx
    · exact ⟨hstep,history,hrun,List.suffix_refl _⟩
    · obtain ⟨hx',before,hbefore,hsuffix⟩ := ih hx
      exact ⟨hx',before,hbefore,hsuffix.trans (List.suffix_cons _ _)⟩

theorem uncons {x : Taken σ ε} (h : Run step start (x :: history) s) :
    x.post = s ∧ step x.pre x.event = some s ∧ Run step start history x.pre := by
  cases h with
  | snoc hrun hstep => exact ⟨rfl,hstep,hrun⟩

theorem upto {later before : List (Taken σ ε)} {x : Taken σ ε}
    (h : Run step start (later ++ x :: before) s) : Run step start (x :: before) x.post := by
  induction later generalizing s with
  | nil =>
    have hpost := h.uncons.1
    rw [hpost]
    exact h
  | cons y later ih => exact ih h.uncons.2.2

theorem append {later : List (Taken σ ε)} (h : Run step start history s)
    (h' : Run step s later t) : Run step start (later ++ history) t := by
  induction h' with
  | nil => exact h
  | snoc _ hs ih => exact ih.snoc hs

/-- What every step keeps or increases only grows through a run. -/
theorem mono {R : σ → σ → Prop} (hrefl : ∀ a, R a a) (htrans : ∀ {a b c}, R a b → R b c → R a c)
    (hstep : ∀ s e t, step s e = some t → R s t) (h : Run step start history s) {x : Taken σ ε}
    (hx : x ∈ history) : R x.post s := by
  induction h with
  | nil => simp at hx
  | snoc _ hs ih =>
    rcases List.mem_cons.mp hx with rfl | hx
    · exact hrefl _
    · exact htrans (ih hx) (hstep _ _ _ hs)

/-- A property of states that holds at the start and is kept by every step holds
in every state a run reaches. -/
theorem invariant {I : σ → Prop} (h₀ : I start)
    (hstep : ∀ s e t, I s → step s e = some t → I t) (h : Run step start history s) : I s := by
  induction h with
  | nil => exact h₀
  | snoc _ hs ih => exact hstep _ _ _ ih hs

/-- The same rule for properties of the state together with the history before it. -/
theorem history_invariant {I : List (Taken σ ε) → σ → Prop} (h₀ : I [] start)
    (hstep : ∀ history s e t, Run step start history s → I history s → step s e = some t →
      I (⟨s,e,t⟩ :: history) t) (h : Run step start history s) : I history s := by
  induction h with
  | nil => exact h₀
  | snoc hrun hs ih => exact hstep _ _ _ _ hrun ih hs

/-- Its runs are the runs of the machine in which every step passes. -/
theorem of_guarded {p : σ → ε → Bool} (h : Run (guarded p step) start history s) :
    Run step start history s ∧ ∀ x ∈ history, p x.pre x.event = true := by
  induction h with
  | nil => exact ⟨.nil,by simp⟩
  | @snoc history s e t _ hs ih =>
    obtain ⟨hp,hstep⟩ := Option.ite_none_right_eq_some.mp hs
    exact ⟨ih.1.snoc hstep,List.forall_mem_cons.mpr ⟨hp,ih.2⟩⟩

theorem exec_run (hs : Run step start history s) (es : List ε) (h : exec step s es = some t) :
    ∃ later, Run step start (later ++ history) t ∧ later.map Taken.event = es.reverse := by
  induction es generalizing s history with
  | nil =>
    simp only [exec,Option.some.injEq] at h
    subst t
    exact ⟨[],hs,rfl⟩
  | cons e es ih =>
    simp only [exec,Option.bind_eq_some_iff] at h
    obtain ⟨u,hu,ht⟩ := h
    obtain ⟨later,hrun,he⟩ := ih (hs.snoc hu) ht
    exact ⟨later ++ [⟨s,e,u⟩],by simpa using hrun,by simp [he]⟩

theorem of_exec (es : List ε) (h : exec step start es = some t) :
    ∃ history, Run step start history t ∧ history.map Taken.event = es.reverse := by
  simpa using exec_run Run.nil es h

/-- A test passed at the end of an execution is passed in a state that is reached. -/
theorem of_exec_any {p : σ → Bool} (es : List ε) (h : (exec step start es).any p = true) :
    ∃ history t, Run step start history t ∧ history.map Taken.event = es.reverse ∧ p t = true := by
  cases hend : exec step start es with
  | none => simp [hend] at h
  | some t =>
    obtain ⟨history,hrun,hevents⟩ := of_exec es hend
    exact ⟨history,t,hrun,hevents,by simpa [hend] using h⟩

theorem of_exec_last {p : σ → σ → Bool} {es : List ε} {e : ε}
    (h : ((exec step start es).any fun s => (step s e).any (p s)) = true) :
    ∃ history s t, Run step start (⟨s,e,t⟩ :: history) t ∧ step s e = some t ∧ p s t = true := by
  obtain ⟨history,s,hrun,_,hs⟩ := of_exec_any (p:=fun s => (step s e).any (p s)) es h
  cases ht : step s e with
  | none => simp [ht] at hs
  | some t => exact ⟨history,s,t,hrun.snoc ht,ht,by simpa [ht] using hs⟩

theorem of_exec_twice {p : σ → Bool} {q : σ → σ → Bool} {es es' : List ε} {e e' : ε}
    (h : ((exec step start es).any fun s => p s && (step s e).any fun t =>
      (exec step t es').any fun u => (step u e').any (q u)) = true) :
    ∃ before between s t u v, Run step start (⟨u,e',v⟩ :: (between ++ ⟨s,e,t⟩ :: before)) v ∧
      p s = true ∧ q u v = true := by
  simp only [Option.any_eq_true,Bool.and_eq_true] at h
  obtain ⟨s,hs,hp,t,ht,u,hu,v,hv,hq⟩ := h
  obtain ⟨before,hbefore,_⟩ := of_exec es hs
  obtain ⟨between,hbetween,_⟩ := exec_run (hbefore.snoc ht) es' hu
  exact ⟨before,between,s,t,u,v,hbetween.snoc hv,hp,hq⟩

theorem event_mem {es : List ε} (h : history.map Taken.event = es.reverse) {x : Taken σ ε}
    (hx : x ∈ history) : x.event ∈ es := by
  rw [← List.mem_reverse,← h]
  exact List.mem_map_of_mem hx

/-! ### Logs -/

section Log

variable {α : Type*} {log : σ → List α}

theorem log_suffix (hstep : ∀ s e t, step s e = some t → log t = log s ∨ ∃ a, log t = a :: log s)
    (h : Run step start history s) {x : Taken σ ε} (hx : x ∈ history) :
    log x.post <:+ log s := by
  refine h.mono (R := fun s t => log s <:+ log t) (fun _ => List.suffix_refl _)
    List.IsSuffix.trans (fun s e t hs => ?_) hx
  rcases hstep s e t hs with hlog | ⟨a,hlog⟩
  · rw [hlog]
  · rw [hlog]
    exact List.suffix_cons a _

theorem log_suffixes
    (hstep : ∀ s e t, step s e = some t → log t = log s ∨ ∃ a, log t = a :: log s)
    (h : Run step start history s) :
    history.Pairwise fun later earlier => log earlier.post <:+ log later.post := by
  induction h with
  | nil => exact List.Pairwise.nil
  | @snoc history s e t hrun hs ih =>
    exact List.pairwise_cons.mpr
      ⟨fun x hx => log_suffix hstep (hrun.snoc hs) (List.mem_cons_of_mem _ hx),ih⟩

theorem log_head (h₀ : log start = [])
    (hstep : ∀ s e t, step s e = some t → log t = log s ∨ ∃ a, log t = a :: log s)
    (h : Run step start history s) {a : α} (ha : a ∈ log s) :
    ∃ x ∈ history, (log x.post).head? = some a := by
  induction h with
  | nil => simp [h₀] at ha
  | @snoc history s e t _ hs ih =>
    have hpast : a ∈ log s → ∃ x ∈ (⟨s,e,t⟩ :: history : List (Taken σ ε)),
        (log x.post).head? = some a := by
      intro ha
      exact List.exists_mem_cons_of_exists (ih ha)
    rcases hstep s e t hs with hlog | ⟨b,hlog⟩
    · exact hpast (hlog ▸ ha)
    · rw [hlog] at ha
      rcases List.mem_cons.mp ha with rfl | ha
      · exact ⟨_,List.mem_cons_self,by simp [hlog]⟩
      · exact hpast ha

/-- The newest items never go down exactly when the log is in order. -/
theorem heads_ordered_iff {R : α → α → Prop} (hrefl : ∀ a, R a a) (h₀ : log start = [])
    (hstep : ∀ s e t, step s e = some t → log t = log s ∨ ∃ a, log t = a :: log s)
    (h : Run step start history s) :
    (history.Pairwise fun later earlier => ∀ a ∈ (log earlier.post).head?,
      ∀ b ∈ (log later.post).head?, R a b) ↔
      (log s).Pairwise fun later earlier => R earlier later := by
  induction h with
  | nil => simp [h₀]
  | @snoc history s e t hrun hs ih =>
    rw [List.pairwise_cons,ih]
    rcases hstep s e t hs with hlog | ⟨b,hlog⟩
    · rw [hlog]
      refine ⟨And.right,fun hordered => ⟨fun x hx a ha b hb => ?_,hordered⟩⟩
      have hsuffix := log_suffix hstep hrun hx
      have hmem : a ∈ log s := hsuffix.subset (List.mem_of_mem_head? ha)
      cases hnow : log s with
      | nil => simp [hnow] at hmem
      | cons c rest =>
        rw [hnow] at hmem hordered
        obtain rfl : c = b := by simpa [hlog,hnow] using hb
        rcases List.mem_cons.mp hmem with rfl | hmem
        · exact hrefl a
        · exact (List.pairwise_cons.mp hordered).1 a hmem
    · rw [hlog,List.pairwise_cons]
      refine and_congr_left fun _ => ⟨fun hall a ha => ?_,fun hall x hx a ha c hc => ?_⟩
      · obtain ⟨x,hx,hhead⟩ := log_head h₀ hstep hrun ha
        exact hall x hx a hhead b (by simp)
      · obtain rfl : b = c := by simpa [hlog] using hc
        exact hall a ((log_suffix hstep hrun hx).subset (List.mem_of_mem_head? ha))

end Log

end Run
end Transition
end Kivi
