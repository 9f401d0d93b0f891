import Mathlib

/-! Words between separators: what formatted extraction takes off the front of a stream. -/
namespace Kivi
namespace Token

variable {α : Type*} {sep : α → Bool} {gap word rest s : List α} {a : α}

/-- Skip separators and take everything up to the next one; the rest is left in the stream. -/
def extract (sep : α → Bool) (s : List α) : List α × List α :=
  ((s.dropWhile sep).takeWhile fun a => !sep a,(s.dropWhile sep).dropWhile fun a => !sep a)

theorem extract_parts (sep : α → Bool) (s : List α) :
    s.takeWhile sep ++ (extract sep s).1 ++ (extract sep s).2 = s := by
  have hword : (extract sep s).1 ++ (extract sep s).2 = s.dropWhile sep :=
    List.takeWhile_append_dropWhile
  rw [List.append_assoc,hword,List.takeWhile_append_dropWhile]

theorem sep_of_mem_extract (ha : a ∈ (extract sep s).1) : sep a = false := by
  have h := List.mem_takeWhile_imp ha
  simpa using h

theorem sep_of_head_extract (ha : a ∈ (extract sep s).2.head?) : sep a = true := by
  have h := List.head?_dropWhile_not (fun a => !sep a) (s.dropWhile sep)
  change (match (extract sep s).2.head? with | some x => (!sep x) = false | none => True) at h
  rw [Option.mem_def.mp ha] at h
  simpa using h

theorem takeWhile_ne_nil (hs : ∀ a ∈ s.head?, sep a = true) (hne : s ≠ []) :
    s.takeWhile sep ≠ [] := by
  cases s with
  | nil => contradiction
  | cons b s => simp [hs b rfl]

/-- Extraction undoes the writing of a word. -/
theorem extract_append (hgap : ∀ b ∈ gap, sep b = true) (hne : word ≠ [])
    (hword : ∀ b ∈ word, sep b = false) (hrest : ∀ b ∈ rest.head?, sep b = true) :
    extract sep (gap ++ word ++ rest) = (word,rest) := by
  have hskip : (gap ++ word ++ rest).dropWhile sep = word ++ rest := by
    rw [List.append_assoc,List.dropWhile_append_of_pos hgap]
    cases word with
    | nil => contradiction
    | cons b word => simp [hword b List.mem_cons_self]
  have htoken : ∀ b ∈ word, (!sep b) = true := by
    intro b hb
    rw [hword b hb]
    rfl
  have hstop : (rest.takeWhile fun b => !sep b) = [] ∧ (rest.dropWhile fun b => !sep b) = rest := by
    cases rest with
    | nil => simp
    | cons b rest => simp [hrest b rfl]
  simp only [extract,hskip]
  rw [List.takeWhile_append_of_pos htoken,List.dropWhile_append_of_pos htoken,hstop.1,hstop.2,
    List.append_nil]

theorem takeWhile_append_of_stop {p : α → Bool} (h : ¬ ∀ b ∈ s, p b = true) (t : List α) :
    (s ++ t).takeWhile p = s.takeWhile p := by
  have hlen : (s.takeWhile p).length ≠ s.length := fun hlen =>
    h (List.takeWhile_eq_self_iff.mp ((List.takeWhile_prefix p).eq_of_length hlen))
  rw [List.takeWhile_append,if_neg hlen]

theorem dropWhile_append_of_stop {p : α → Bool} (h : ¬ ∀ b ∈ s, p b = true) (t : List α) :
    (s ++ t).dropWhile p = s.dropWhile p ++ t := by
  have hne : s.dropWhile p ≠ [] := fun hnil => h (List.dropWhile_eq_nil_iff.mp hnil)
  rw [List.dropWhile_append,if_neg (by simpa using hne)]

theorem takeWhile_concat {p : α → Bool} (ha : p a = false) (s : List α) :
    (s ++ [a]).takeWhile p = s.takeWhile p := by
  by_cases hall : ∀ b ∈ s, p b = true
  · have hend : [a].takeWhile p = [] := by simp [ha]
    rw [List.takeWhile_append_of_pos hall,hend,List.append_nil,List.takeWhile_eq_self_iff.mpr hall]
  · exact takeWhile_append_of_stop hall _

theorem dropWhile_concat {p : α → Bool} (ha : p a = false) (s : List α) :
    (s ++ [a]).dropWhile p = s.dropWhile p ++ [a] := by
  by_cases hall : ∀ b ∈ s, p b = true
  · have hend : [a].dropWhile p = [a] := by simp [ha]
    rw [List.dropWhile_append_of_pos hall,hend,List.dropWhile_eq_nil_iff.mpr hall,List.nil_append]
  · exact dropWhile_append_of_stop hall _

theorem extract_cons (ha : sep a = true) (s : List α) : extract sep (a :: s) = extract sep s := by
  simp only [extract,List.dropWhile_cons_of_pos ha]

/-- A separator at the end of the stream stays there, unless no word is left before it. -/
theorem extract_concat (ha : sep a = true) (s : List α) :
    (extract sep (s ++ [a])).1 = (extract sep s).1 ∧
      ((extract sep (s ++ [a])).2 = (extract sep s).2 ++ [a] ∨
        (extract sep (s ++ [a])).2 = [] ∧ (extract sep s).2 = []) := by
  by_cases hall : ∀ b ∈ s, sep b = true
  · have hnil : s.dropWhile sep = [] := List.dropWhile_eq_nil_iff.mpr hall
    have hnil' : (s ++ [a]).dropWhile sep = [] := by
      rw [List.dropWhile_append_of_pos hall]
      simp [ha]
    simp [extract,hnil,hnil']
  · simp only [extract,dropWhile_append_of_stop hall]
    exact ⟨takeWhile_concat (by simp [ha]) _,.inl (dropWhile_concat (by simp [ha]) _)⟩

end Token
end Kivi
