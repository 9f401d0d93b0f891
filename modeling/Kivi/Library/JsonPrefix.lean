import Kivi.Library.JsonReader

/-! A text that is cut short is no document. What has been read of a text is read the same way
when the text goes on, so a text and a proper prefix of it are never both whole documents. -/
namespace Kivi
namespace Json

open Bytes (ofString)

theorem readEscape_append {s : Bytes} {r : UInt8 × Bytes} (h : readEscape s = some r) (t : Bytes) :
    readEscape (s ++ t) = some (r.1,r.2 ++ t) := by
  cases s with
  | nil => simp [readEscape] at h
  | cons c s =>
    unfold readEscape at h ⊢
    by_cases hu : c = 0x75
    · simp only [List.cons_append,if_pos hu] at h ⊢
      obtain _ | ⟨_,_ | ⟨_,_ | ⟨_,_ | ⟨_,s⟩⟩⟩⟩ := s
      all_goals first | cases h; done | skip
      obtain rfl := Option.some.inj h
      rfl
    · simp only [List.cons_append,if_neg hu] at h ⊢
      obtain ⟨b,hb,rfl⟩ := Option.map_eq_some_iff.mp h
      rw [hb,Option.map_some]

theorem readChar_append {s : Bytes} {r : UInt8 × Bytes} (h : readChar s = some r) (t : Bytes) :
    readChar (s ++ t) = some (r.1,r.2 ++ t) := by
  cases s with
  | nil => simp [readChar] at h
  | cons b s =>
    rw [List.cons_append,readChar]
    rw [readChar] at h
    by_cases hb : b = 0x5C
    · rw [if_pos hb] at h ⊢
      exact readEscape_append h t
    · rw [if_neg hb] at h ⊢
      obtain rfl := Option.some.inj h
      rfl

theorem readString_append {n m : ℕ} {s : Bytes} {r : Bytes × Bytes} (h : readString n s = some r)
    (hnm : n ≤ m) (t : Bytes) : readString m (s ++ t) = some (r.1,r.2 ++ t) := by
  induction n generalizing m s r with
  | zero => simp [readString] at h
  | succ n ih =>
    obtain ⟨m,rfl⟩ := Nat.exists_eq_add_of_le' (Nat.one_le_of_lt hnm)
    rw [readString] at h ⊢
    cases s with
    | nil => simp [readChar] at h
    | cons b s =>
      by_cases hb : (b::s).head? = some 0x22
      · rw [if_pos hb] at h
        obtain rfl := Option.some.inj h
        exact if_pos (by simpa using hb)
      · rw [if_neg hb] at h
        obtain ⟨c,hc,hrest⟩ := Option.bind_eq_some_iff.mp h
        obtain ⟨q,hq,hr⟩ := Option.bind_eq_some_iff.mp hrest
        obtain rfl := Option.some.inj hr
        have hchar := readChar_append hc t
        have hstring := ih hq (Nat.le_of_succ_le_succ hnm)
        rw [if_neg (by simpa using hb)]
        simp only [hchar,hstring,Option.bind_eq_bind,Option.bind_some,Option.pure_def]

theorem readQuoted_append {s : Bytes} {r : Bytes × Bytes} (h : readQuoted s = some r) (t : Bytes) :
    readQuoted (s ++ t) = some (r.1,r.2 ++ t) :=
  readString_append h (by simp) t

theorem readDecimal_append {s : Bytes} {r : ℕ × Bytes} (h : readDecimal s = some r)
    (hrest : r.2 ≠ []) (t : Bytes) : readDecimal (s ++ t) = some (r.1,r.2 ++ t) := by
  unfold readDecimal at h
  cases htake : s.takeWhile isDigit with
  | nil => simp [htake] at h
  | cons d ds =>
    simp only [htake,Option.some.injEq] at h
    subst r
    have hrest : s.dropWhile isDigit ≠ [] := hrest
    have hdrop : ¬ (s.dropWhile isDigit).isEmpty = true := by simpa using hrest
    have hlen : ¬ (s.takeWhile isDigit).length = s.length := by
      intro hlen
      have hsplit := congrArg List.length (List.takeWhile_append_dropWhile (p:=isDigit) (l:=s))
      rw [List.length_append] at hsplit
      exact hrest (List.length_eq_zero_iff.mp (by omega))
    rw [readDecimal,List.takeWhile_append,if_neg hlen,List.dropWhile_append,if_neg hdrop,htake]

theorem readLiteral_cut {rest : Bytes} {j : Json} {s : Bytes} {r : Json × Bytes}
    (h : readLiteral rest j s = some r) (t : Bytes) :
    readLiteral rest j (s ++ t) = some (r.1,r.2 ++ t) := by
  unfold readLiteral at h
  by_cases hp : rest <+: s
  · rw [if_pos hp,Option.some.injEq] at h
    subst r
    rw [readLiteral,if_pos (hp.trans (List.prefix_append s t)),
      List.drop_append_of_le_length hp.length_le]
  · simp [hp] at h

/-- Where the text goes on, the document read is complete: it is followed by something or it is
no number. -/
def Complete (r : Json × Bytes) : Prop := r.2 ≠ [] ∨ ∀ z, r.1 ≠ .integer z

theorem read_ne_nil {n : ℕ} {s : Bytes} {r : Json × Bytes} (h : read n s = some r) : s ≠ [] := by
  rintro rfl
  cases n <;> simp [read] at h

theorem readElems_ne_nil {n : ℕ} {s : Bytes} {r : List Json × Bytes} (h : readElems n s = some r) :
    s ≠ [] := by
  rintro rfl
  cases n <;> simp [readElems] at h

theorem readField_ne_nil {n : ℕ} {s : Bytes} {r : (Bytes × Json) × Bytes}
    (h : readField n s = some r) : s ≠ [] := by
  rintro rfl
  cases n <;> simp [readField,guard,failure] at h

theorem readFields_ne_nil {n : ℕ} {s : Bytes} {r : Fields × Bytes} (h : readFields n s = some r) :
    s ≠ [] := by
  rintro rfl
  cases n <;> simp [readFields] at h

theorem guard_bind_eq_some {α : Type} {p : Prop} [Decidable p] {x : Option α} {a : α} :
    ((guard p : Option Unit).bind fun _ => x) = some a ↔ p ∧ x = some a := by
  by_cases hp : p <;> simp [guard,failure,hp]

theorem head?_append {s : Bytes} {b : UInt8} (h : s.head? = some b) (t : Bytes) :
    (s ++ t).head? = some b ∧ (s ++ t).tail = s.tail ++ t := by
  cases s with
  | nil => simp at h
  | cons c s => exact ⟨h,rfl⟩

/-- What each part of the reader has read, it reads of a longer text too. -/
structure Extends (n : ℕ) : Prop where
  value : ∀ {m s r} (t : Bytes), read n s = some r → n ≤ m → Complete r →
    read m (s ++ t) = some (r.1,r.2 ++ t)
  elems : ∀ {m s r} (t : Bytes), readElems n s = some r → n ≤ m →
    readElems m (s ++ t) = some (r.1,r.2 ++ t)
  field : ∀ {m s r} (t : Bytes), readField n s = some r → n ≤ m → r.2 ≠ [] →
    readField m (s ++ t) = some (r.1,r.2 ++ t)
  fields : ∀ {m s r} (t : Bytes), readFields n s = some r → n ≤ m →
    readFields m (s ++ t) = some (r.1,r.2 ++ t)

theorem extends_zero : Extends 0 where
  value := by simp [read]
  elems := by simp [readElems]
  field := by simp [readField]
  fields := by simp [readFields]

namespace Extends

variable {n m : ℕ} (h : Extends n) (hnm : n ≤ m) (t : Bytes)
include h hnm

theorem elems_succ {s : Bytes} {r : List Json × Bytes} (hr : readElems (n+1) s = some r) :
    readElems (m+1) (s ++ t) = some (r.1,r.2 ++ t) := by
  cases s with
  | nil => simp [readElems] at hr
  | cons b s =>
    rw [readElems] at hr
    rw [List.cons_append,readElems]
    by_cases hb : b = 0x5D
    · rw [if_pos hb] at hr ⊢
      obtain rfl := Option.some.inj hr
      rfl
    rw [if_neg hb] at hr ⊢
    by_cases hcomma : b = 0x2C
    · rw [if_pos hcomma] at hr ⊢
      obtain ⟨x,hx,hrest⟩ := Option.bind_eq_some_iff.mp hr
      obtain ⟨xs,hxs,hr⟩ := Option.bind_eq_some_iff.mp hrest
      obtain rfl := Option.some.inj hr
      have hvalue := h.value t hx hnm (.inl (readElems_ne_nil hxs))
      have helems := h.elems t hxs hnm
      simp only [hvalue,helems,Option.bind_eq_bind,Option.bind_some,Option.pure_def]
    · simp [hcomma] at hr

theorem field_succ {s : Bytes} {r : (Bytes × Json) × Bytes} (hr : readField (n+1) s = some r)
    (hrest : r.2 ≠ []) : readField (m+1) (s ++ t) = some (r.1,r.2 ++ t) := by
  rw [readField] at hr
  obtain ⟨hquote,hr⟩ := guard_bind_eq_some.mp hr
  obtain ⟨k,hk,hr⟩ := Option.bind_eq_some_iff.mp hr
  obtain ⟨hcolon,hr⟩ := guard_bind_eq_some.mp hr
  obtain ⟨v,hv,hr⟩ := Option.bind_eq_some_iff.mp hr
  obtain rfl := Option.some.inj hr
  have hs := head?_append hquote t
  have hk2 := head?_append hcolon t
  have hkey := readQuoted_append hk t
  have hvalue := h.value t hv hnm (.inl hrest)
  rw [readField]
  refine guard_bind_eq_some.mpr ⟨hs.1,?_⟩
  rw [hs.2,hkey]
  refine guard_bind_eq_some.mpr ⟨hk2.1,?_⟩
  rw [hk2.2,hvalue]
  rfl

theorem fields_succ {s : Bytes} {r : Fields × Bytes} (hr : readFields (n+1) s = some r) :
    readFields (m+1) (s ++ t) = some (r.1,r.2 ++ t) := by
  cases s with
  | nil => simp [readFields] at hr
  | cons b s =>
    rw [readFields] at hr
    rw [List.cons_append,readFields]
    by_cases hb : b = 0x7D
    · rw [if_pos hb] at hr ⊢
      obtain rfl := Option.some.inj hr
      rfl
    rw [if_neg hb] at hr ⊢
    by_cases hcomma : b = 0x2C
    · rw [if_pos hcomma] at hr ⊢
      obtain ⟨f,hf,hrest⟩ := Option.bind_eq_some_iff.mp hr
      obtain ⟨fs,hfs,hr⟩ := Option.bind_eq_some_iff.mp hrest
      obtain rfl := Option.some.inj hr
      have hfield := h.field t hf hnm (readFields_ne_nil hfs)
      have hfields := h.fields t hfs hnm
      simp only [hfield,hfields,Option.bind_eq_bind,Option.bind_some,Option.pure_def]
    · simp [hcomma] at hr

theorem array_rest {s : Bytes} {r : Json × Bytes}
    (hr : (if s.head? = some 0x5D then some (.array [],s.tail)
      else do
        let x ← read n s
        let xs ← readElems n x.2
        return (.array (x.1::xs.1),xs.2)) = some r) :
    (if (s ++ t).head? = some 0x5D then some (.array [],(s ++ t).tail)
      else do
        let x ← read m (s ++ t)
        let xs ← readElems m x.2
        return (.array (x.1::xs.1),xs.2)) = some (r.1,r.2 ++ t) := by
  by_cases hempty : s.head? = some 0x5D
  · have hs := head?_append hempty t
    rw [if_pos hempty] at hr
    obtain rfl := Option.some.inj hr
    rw [if_pos hs.1,hs.2]
  · rw [if_neg hempty] at hr
    obtain ⟨x,hx,hr⟩ := Option.bind_eq_some_iff.mp hr
    obtain ⟨xs,hxs,hr⟩ := Option.bind_eq_some_iff.mp hr
    obtain rfl := Option.some.inj hr
    have hvalue := h.value t hx hnm (.inl (readElems_ne_nil hxs))
    have helems := h.elems t hxs hnm
    rw [List.head?_append_of_ne_nil _ (read_ne_nil hx),if_neg hempty]
    simp only [hvalue,helems,Option.bind_eq_bind,Option.bind_some,Option.pure_def]

theorem object_rest {s : Bytes} {r : Json × Bytes}
    (hr : (if s.head? = some 0x7D then some (.object [],s.tail)
      else do
        let f ← readField n s
        let fs ← readFields n f.2
        return (.object (setField f.1.1 f.1.2 fs.1),fs.2)) = some r) :
    (if (s ++ t).head? = some 0x7D then some (.object [],(s ++ t).tail)
      else do
        let f ← readField m (s ++ t)
        let fs ← readFields m f.2
        return (.object (setField f.1.1 f.1.2 fs.1),fs.2)) = some (r.1,r.2 ++ t) := by
  by_cases hempty : s.head? = some 0x7D
  · have hs := head?_append hempty t
    rw [if_pos hempty] at hr
    obtain rfl := Option.some.inj hr
    rw [if_pos hs.1,hs.2]
  · rw [if_neg hempty] at hr
    obtain ⟨f,hf,hr⟩ := Option.bind_eq_some_iff.mp hr
    obtain ⟨fs,hfs,hr⟩ := Option.bind_eq_some_iff.mp hr
    obtain rfl := Option.some.inj hr
    have hfield := h.field t hf hnm (readFields_ne_nil hfs)
    have hfields := h.fields t hfs hnm
    rw [List.head?_append_of_ne_nil _ (readField_ne_nil hf),if_neg hempty]
    simp only [hfield,hfields,Option.bind_eq_bind,Option.bind_some,Option.pure_def]

theorem value_succ {s : Bytes} {r : Json × Bytes} (hr : read (n+1) s = some r) (hc : Complete r) :
    read (m+1) (s ++ t) = some (r.1,r.2 ++ t) := by
  cases s with
  | nil => simp [read] at hr
  | cons b s =>
    rw [read] at hr
    rw [List.cons_append,read]
    by_cases hb : b = 0x6E
    · rw [if_pos hb] at hr ⊢
      exact readLiteral_cut hr t
    rw [if_neg hb] at hr ⊢
    by_cases hb : b = 0x74
    · rw [if_pos hb] at hr ⊢
      exact readLiteral_cut hr t
    rw [if_neg hb] at hr ⊢
    by_cases hb : b = 0x66
    · rw [if_pos hb] at hr ⊢
      exact readLiteral_cut hr t
    rw [if_neg hb] at hr ⊢
    by_cases hb : b = 0x22
    · rw [if_pos hb] at hr ⊢
      obtain ⟨q,hq,rfl⟩ := Option.map_eq_some_iff.mp hr
      rw [readQuoted_append hq t,Option.map_some]
    rw [if_neg hb] at hr ⊢
    by_cases hb : b = 0x5B
    · rw [if_pos hb] at hr ⊢
      exact h.array_rest hnm t hr
    rw [if_neg hb] at hr ⊢
    by_cases hb : b = 0x7B
    · rw [if_pos hb] at hr ⊢
      exact h.object_rest hnm t hr
    rw [if_neg hb] at hr ⊢
    by_cases hb : b = 0x2D
    · rw [if_pos hb] at hr ⊢
      obtain ⟨q,hq,rfl⟩ := Option.map_eq_some_iff.mp hr
      have hrest : q.2 ≠ [] := hc.resolve_right fun hnot => hnot _ rfl
      rw [readDecimal_append hq hrest t,Option.map_some]
    rw [if_neg hb] at hr ⊢
    obtain ⟨q,hq,rfl⟩ := Option.map_eq_some_iff.mp hr
    have hrest : q.2 ≠ [] := hc.resolve_right fun hnot => hnot _ rfl
    have hdecimal := readDecimal_append hq hrest t
    rw [List.cons_append] at hdecimal
    rw [hdecimal,Option.map_some]

omit hnm in
theorem succ : Extends (n+1) where
  value := by
    intro m s r t hr hnm hc
    obtain ⟨m,rfl⟩ := Nat.exists_eq_add_of_le' (Nat.one_le_of_lt hnm)
    exact h.value_succ (Nat.le_of_succ_le_succ hnm) t hr hc
  elems := by
    intro m s r t hr hnm
    obtain ⟨m,rfl⟩ := Nat.exists_eq_add_of_le' (Nat.one_le_of_lt hnm)
    exact h.elems_succ (Nat.le_of_succ_le_succ hnm) t hr
  field := by
    intro m s r t hr hnm hrest
    obtain ⟨m,rfl⟩ := Nat.exists_eq_add_of_le' (Nat.one_le_of_lt hnm)
    exact h.field_succ (Nat.le_of_succ_le_succ hnm) t hr hrest
  fields := by
    intro m s r t hr hnm
    obtain ⟨m,rfl⟩ := Nat.exists_eq_add_of_le' (Nat.one_le_of_lt hnm)
    exact h.fields_succ (Nat.le_of_succ_le_succ hnm) t hr

end Extends

theorem extends_all (n : ℕ) : Extends n := by
  induction n with
  | zero => exact extends_zero
  | succ n ih => exact ih.succ

theorem read_append {n m : ℕ} {s : Bytes} {r : Json × Bytes} (h : read n s = some r) (hnm : n ≤ m)
    (hc : Complete r) (t : Bytes) : read m (s ++ t) = some (r.1,r.2 ++ t) :=
  (extends_all n).value t h hnm hc

/-- Of a text and a proper prefix of it at most one is a document, numbers apart. -/
theorem parse_append {s t : Bytes} {j : Json} (h : parse s = .ok j) (hj : ∀ z, j ≠ .integer z)
    (ht : t ≠ []) : parse (s ++ t) = .error .parseError := by
  have hread : read (s.length+1) s = some (j,[]) := by
    unfold parse at h
    split at h
    · rename_i j' hread
      rw [hread,Except.ok.inj h]
    · cases h
  have hlen : s.length+1 ≤ (s ++ t).length+1 := by simp
  have hlong := read_append hread hlen (.inr hj) t
  obtain ⟨b,t,rfl⟩ := List.exists_cons_of_ne_nil ht
  simp only [parse,hlong,List.nil_append]

theorem parse_brace {s : Bytes} {j : Json} (h : parse (0x7B::s) = .ok j) (z : ℤ) :
    j ≠ .integer z := by
  rintro rfl
  unfold parse at h
  split at h
  · rename_i j hread
    rw [Except.ok.inj h,read] at hread
    rw [if_neg (by decide),if_neg (by decide),if_neg (by decide),if_neg (by decide),
      if_neg (by decide),if_pos rfl] at hread
    by_cases hempty : s.head? = some 0x7D
    · simp [hempty] at hread
    · rw [if_neg hempty] at hread
      obtain ⟨f,_,hread⟩ := Option.bind_eq_some_iff.mp hread
      obtain ⟨fs,_,hread⟩ := Option.bind_eq_some_iff.mp hread
      simp at hread
  · cases h

theorem write_object_head (fs : Fields) : ∃ s, write (.object fs) = 0x7B::s := by
  cases fs with
  | nil => exact ⟨_,by rw [write]⟩
  | cons f fs =>
    obtain ⟨k,v⟩ := f
    exact ⟨_,by rw [write]⟩

/-- A parser that takes neither a proper prefix of the text of an object nor a text with
malformed strings for a document. -/
structure StrictParser extends Parser where
  parse_cut : ∀ fs s, Ordered (.object fs) → clean (.object fs) = true →
    sized (.object fs) = true → s <+: write (.object fs) → s ≠ write (.object fs) →
    ∃ e, parse s = .error e
  parse_clean : ∀ s j, parse s = .ok j → clean j = true

def parseClean (s : Bytes) : Except Error Json :=
  match Json.parse s with
  | .ok j => if clean j then .ok j else .error .parseError
  | .error e => .error e

theorem parseClean_eq_ok {s : Bytes} {j : Json} :
    parseClean s = .ok j ↔ Json.parse s = .ok j ∧ clean j = true := by
  unfold parseClean
  cases hp : Json.parse s with
  | error e => simp
  | ok j' =>
    by_cases hc : clean j' = true
    · simp only [hc,if_true,Except.ok.injEq]
      exact ⟨fun h => ⟨h,h ▸ hc⟩,And.left⟩
    · simp only [hc,Bool.false_eq_true,if_false,reduceCtorEq,Except.ok.injEq,false_iff]
      rintro ⟨rfl,hclean⟩
      exact hc hclean

/-- A proper prefix of the text of an object is no document. -/
theorem parse_cut_ne_ok {fs : Fields} (ho : Ordered (.object fs)) {s : Bytes}
    (hs : s <+: write (.object fs)) (hne : s ≠ write (.object fs)) (j : Json) :
    Json.parse s ≠ .ok j := by
  intro hp
  obtain ⟨t,ht⟩ := hs
  have hrest : t ≠ [] := by
    rintro rfl
    exact hne (by rw [← ht,List.append_nil])
  cases s with
  | nil => cases hp
  | cons b s =>
    obtain ⟨text,htext⟩ := write_object_head fs
    obtain rfl : b = 0x7B := by
      rw [htext,List.cons_append] at ht
      exact (List.cons.inj ht).1
    have hcut := parse_append hp (parse_brace hp) hrest
    have hwhole := Json.parse_write ho
    rw [← ht,hcut] at hwhole
    cases hwhole

def StrictParser.reference : StrictParser where
  parse := parseClean
  parse_write := fun _ ho hc _ => parseClean_eq_ok.mpr ⟨Json.parse_write ho,hc⟩
  parse_cut := by
    intro fs s ho _ _ hs hne
    cases hp : parseClean s with
    | error e => exact ⟨e,rfl⟩
    | ok j => exact absurd (parseClean_eq_ok.mp hp).1 (parse_cut_ne_ok ho hs hne j)
  parse_clean := fun _ _ h => (parseClean_eq_ok.mp h).2

end Json
end Kivi
