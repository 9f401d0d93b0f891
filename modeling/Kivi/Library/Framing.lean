import Mathlib

/-! A stream of terminated lines cut into chunks, of which each is to hold one line. -/
namespace Kivi
namespace Framing

variable {α : Type*} {nl : α} {b c d owed : List α} {bs cs : List (List α)}

def stream (nl : α) (bs : List (List α)) : List α := (bs.map (· ++ [nl])).flatten

@[simp] theorem stream_nil : stream nl [] = [] := rfl
@[simp] theorem stream_cons : stream nl (b :: bs) = b ++ [nl] ++ stream nl bs := rfl

/-- A stream of lines that do not hold the terminator can be taken apart in one way only. -/
theorem stream_injective (h : ∀ b ∈ bs, nl ∉ b) (h' : ∀ c ∈ cs, nl ∉ c)
    (heq : stream nl bs = stream nl cs) : bs = cs := by
  classical
  have hline : ∀ (b : List α), nl ∉ b → ∀ s, (b ++ [nl] ++ s).takeWhile (· ≠ nl) = b := by
    intro b hb s
    have hplain : ∀ a ∈ b, decide (a ≠ nl) = true := fun a ha => by
      rw [decide_eq_true_eq]
      rintro rfl
      exact hb ha
    rw [List.append_assoc,List.takeWhile_append_of_pos hplain]
    simp
  induction bs generalizing cs with
  | nil =>
    cases cs with
    | nil => rfl
    | cons c cs => simp at heq
  | cons b bs ih =>
    cases cs with
    | nil => simp at heq
    | cons c cs =>
      rw [List.forall_mem_cons] at h h'
      rw [stream_cons,stream_cons] at heq
      have hfirst : b = c := by
        rw [← hline b h.1 (stream nl bs),heq,hline c h'.1]
      subst hfirst
      rw [ih h.2 h'.2 (List.append_cancel_left heq)]

/-- Each chunk holds one line. Its terminator may come at the head of the next chunk, and is
then `owed` in between. -/
def Framed (nl : α) : List α → List (List α) → List (List α) → Prop
  | owed, [], [] => owed = []
  | owed, b::bs, c::cs =>
    (c = owed ++ b ++ [nl] ∧ Framed nl [] bs cs) ∨ (c = owed ++ b ∧ Framed nl [nl] bs cs)
  | _, _, _ => False

/-- Whoever reads chunk `c` gets at least as much as line `b` has, from something else than a
terminator to something else than a terminator. -/
def Holds (nl : α) (b c : List α) : Prop :=
  ∃ gap core tail, c = gap ++ core ++ tail ∧ b.length ≤ core.length ∧ core ≠ [] ∧
    core.head? ≠ some nl ∧ core.getLast? ≠ some nl

theorem Holds.length_le (h : Holds nl b c) : b.length ≤ c.length := by
  obtain ⟨gap,core,tail,rfl,hlen,_⟩ := h
  simp only [List.length_append]
  omega

theorem Holds.ne_nil (h : Holds nl b c) : c ≠ [] := by
  obtain ⟨gap,core,tail,rfl,_,hne,_⟩ := h
  simp [hne]

theorem Holds.tail (h : Holds nl b (nl :: c)) : Holds nl b c := by
  obtain ⟨gap,core,tail,hc,hlen,hne,hhead,hlast⟩ := h
  cases gap with
  | nil =>
    cases core with
    | nil => contradiction
    | cons x core =>
      have hx : nl = x := (List.cons.inj hc).1
      simp [hx] at hhead
  | cons x gap => exact ⟨gap,core,tail,(List.cons.inj hc).2,hlen,hne,hhead,hlast⟩

theorem Holds.eq_nil_of_line (h : Holds nl b c) (hline : d ++ c = b ++ [nl]) : d = [] := by
  obtain ⟨gap,core,tail,rfl,hlen,hne,_,hlast⟩ := h
  by_contra hd
  have hd' : 0 < d.length := List.length_pos_iff.mpr hd
  have hsum := congrArg List.length hline
  simp only [List.length_append,List.length_singleton] at hsum
  have hgap : gap = [] := List.length_eq_zero_iff.mp (by omega)
  have htail : tail = [] := List.length_eq_zero_iff.mp (by omega)
  subst hgap htail
  have hend := congrArg List.getLast? hline
  rw [List.nil_append,List.append_nil,List.getLast?_append_of_ne_nil _ hne] at hend
  exact hlast (by simpa using hend)

theorem framed_owed (h : Framed nl [] (b :: bs) (c :: cs)) :
    Framed nl [nl] (b :: bs) ((nl :: c) :: cs) := by
  rcases h with ⟨rfl,h⟩ | ⟨rfl,h⟩
  · exact .inl ⟨rfl,h⟩
  · exact .inr ⟨rfl,h⟩

/-- Chunks that hold the lines of their stream one by one are framed. Whatever `d` the chunks
before have taken too much would be missing at the end. -/
theorem framed_of_holds (h : List.Forall₂ (Holds nl) bs cs)
    (hstream : d ++ cs.flatten = stream nl bs) : d = [] ∧ Framed nl [] bs cs := by
  induction bs generalizing cs d with
  | nil =>
    cases h
    have hd : d = [] := by simpa using hstream
    exact ⟨hd,rfl⟩
  | cons b bs ih =>
    cases h with
    | @cons _ c _ cs hb h =>
      rw [List.flatten_cons,stream_cons,← List.append_assoc] at hstream
      -- the chunk either reaches the end of the line or stops right before it
      by_cases hreach : (b ++ [nl]).length ≤ (d ++ c).length
      · obtain ⟨e,he⟩ := List.prefix_of_prefix_length_le (List.prefix_append _ (stream nl bs))
          (hstream ▸ List.prefix_append _ _) hreach
        have hrest : e ++ cs.flatten = stream nl bs := by
          rw [← he,List.append_assoc] at hstream
          exact List.append_cancel_left hstream
        obtain ⟨rfl,hframed⟩ := ih h hrest
        rw [List.append_nil] at he
        obtain rfl := hb.eq_nil_of_line he.symm
        exact ⟨rfl,.inl ⟨he.symm,hframed⟩⟩
      · have hlen := hb.length_le
        simp only [List.length_append,List.length_singleton,not_le] at hreach
        obtain rfl : d = [] := List.length_eq_zero_iff.mp (by omega)
        rw [List.nil_append,List.append_assoc] at hstream
        obtain ⟨rfl,hrest⟩ := List.append_inj hstream.symm (by simp at hreach; omega)
        refine ⟨rfl,.inr ⟨rfl,?_⟩⟩
        cases h with
        | nil => simp at hrest
        | @cons b' c' bs cs hb' h =>
          obtain ⟨x,c',rfl⟩ := List.exists_cons_of_ne_nil hb'.ne_nil
          have hcons : nl :: stream nl (b' :: bs) = x :: (c' ++ cs.flatten) := hrest
          obtain ⟨rfl,htail⟩ := List.cons.inj hcons
          have hshort : [] ++ (c' :: cs).flatten = stream nl (b' :: bs) := htail.symm
          exact framed_owed (ih (.cons hb'.tail h) hshort).2

end Framing
end Kivi
