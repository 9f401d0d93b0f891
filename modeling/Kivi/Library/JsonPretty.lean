import Kivi.Library.JsonReader

/-! The indented text of a document. Without the blanks outside of its strings it is the compact
text, so a reader that skips blanks reads the document back. -/
namespace Kivi
namespace Json

open Bytes (ofString)

def indentation (n : ℕ) : Bytes := List.replicate n 0x20

mutual
/-- The text with one member a line, each `step` blanks further in than what it is part of. -/
def pretty (step : ℕ) : ℕ → Json → Bytes
  | _, .null => ofString "null"
  | _, .boolean true => ofString "true"
  | _, .boolean false => ofString "false"
  | _, .integer n => writeInteger n
  | _, .string s => quote s
  | _, .array [] => [0x5B,0x5D]
  | current, .array (x::xs) => 0x5B :: 0x0A :: (indentation (current+step) ++
      (pretty step (current+step) x ++ prettyElems step current xs))
  | _, .object [] => [0x7B,0x7D]
  | current, .object ((k,v)::fs) => 0x7B :: 0x0A :: (indentation (current+step) ++ (quote k ++
      0x3A :: 0x20 :: (pretty step (current+step) v ++ prettyFields step current fs)))
def prettyElems (step : ℕ) : ℕ → List Json → Bytes
  | current, [] => 0x0A :: (indentation current ++ [0x5D])
  | current, x::xs => 0x2C :: 0x0A :: (indentation (current+step) ++
      (pretty step (current+step) x ++ prettyElems step current xs))
def prettyFields (step : ℕ) : ℕ → List (Bytes × Json) → Bytes
  | current, [] => 0x0A :: (indentation current ++ [0x7D])
  | current, (k,v)::fs => 0x2C :: 0x0A :: (indentation (current+step) ++ (quote k ++
      0x3A :: 0x20 :: (pretty step (current+step) v ++ prettyFields step current fs)))
end

/-- `j.dump(step)`: a string that is not UTF-8 is a type error. -/
def dumpIndented (step : ℕ) (j : Json) : Except Error Bytes :=
  if j.clean then .ok (j.pretty step 0) else .error .typeError

/-! ### Blanks -/

def isBlank (b : UInt8) : Bool := b == 0x20 || b == 0x0A || b == 0x0D || b == 0x09

/-- Where a text stands: outside of its strings, in one, or right after a backslash. -/
inductive Place
  | outside | inside | escaped

/-- Leave out the blanks outside of the strings. -/
def squeeze : Place → Bytes → Bytes
  | _, [] => []
  | .outside, b::s =>
    if isBlank b then squeeze .outside s
    else b :: squeeze (if b = 0x22 then .inside else .outside) s
  | .inside, b::s =>
    b :: squeeze (if b = 0x22 then .outside else if b = 0x5C then .escaped else .inside) s
  | .escaped, b::s => b :: squeeze .inside s

def parseSpaced (s : Bytes) : Except Error Json := parse (squeeze .outside s)

theorem squeeze_plain {s : Bytes} (h : ∀ b ∈ s, isBlank b = false ∧ b ≠ 0x22) (rest : Bytes) :
    squeeze .outside (s ++ rest) = s ++ squeeze .outside rest := by
  induction s with
  | nil => rfl
  | cons b s ih =>
    obtain ⟨⟨hblank,hquote⟩,hs⟩ := List.forall_mem_cons.mp h
    rw [List.cons_append,squeeze,hblank,if_neg Bool.false_ne_true,if_neg hquote,ih hs,
      List.cons_append]

theorem squeeze_indentation (n : ℕ) (rest : Bytes) :
    squeeze .outside (indentation n ++ rest) = squeeze .outside rest := by
  induction n with
  | zero => rfl
  | succ n ih =>
    rw [indentation,List.replicate_succ,List.cons_append,squeeze,if_pos (by decide)]
    exact ih

theorem squeeze_escape (b : UInt8) (rest : Bytes) :
    squeeze .inside (escape b ++ rest) = escape b ++ squeeze .inside rest := by
  unfold escape
  cases hshort : shortEscape b with
  | some c => simp [squeeze]
  | none =>
    obtain ⟨hquote,hslash⟩ := shortEscape_none hshort
    by_cases hcontrol : b ≤ 0x1F
    · have hhex : ∀ d : UInt8, d.toNat < 16 → hexDigit d ≠ 0x22 ∧ hexDigit d ≠ 0x5C := by
        have hall : ∀ n < 16, hexDigit (UInt8.ofNat n) ≠ 0x22 ∧ hexDigit (UInt8.ofNat n) ≠ 0x5C := by
          decide +kernel
        intro d hd
        have hn := hall d.toNat hd
        rwa [UInt8.ofNat_toNat] at hn
      have hbyte := b.toNat_lt
      obtain ⟨hhigh,hhigh'⟩ := hhex (b/16) (by rw [UInt8.toNat_div]; simp; omega)
      obtain ⟨hlow,hlow'⟩ := hhex (b%16) (by rw [UInt8.toNat_mod]; simp; omega)
      simp [hcontrol,squeeze,hhigh,hhigh',hlow,hlow']
    · simp [hcontrol,squeeze,hquote,hslash]

theorem squeeze_quote (s rest : Bytes) :
    squeeze .outside (quote s ++ rest) = quote s ++ squeeze .outside rest := by
  have hbody : ∀ s : Bytes, squeeze .inside (s.flatMap escape ++ 0x22 :: rest) =
      s.flatMap escape ++ 0x22 :: squeeze .outside rest := by
    intro s
    induction s with
    | nil => simp [squeeze]
    | cons b s ih =>
      rw [List.flatMap_cons,List.append_assoc,squeeze_escape,ih,List.append_assoc]
  have hopen : isBlank 0x22 = false := by decide
  simp only [quote,List.cons_append,List.append_assoc,List.nil_append,squeeze,hopen]
  rw [if_neg Bool.false_ne_true,if_pos trivial,hbody]

theorem plain_writeInteger (n : ℤ) : ∀ b ∈ writeInteger n, isBlank b = false ∧ b ≠ 0x22 := by
  intro b hb
  have hd : b = 0x2D ∨ 0x30 ≤ b ∧ b ≤ 0x39 := by
    unfold writeInteger at hb
    split at hb
    · rcases List.mem_cons.mp hb with h | h
      · exact .inl h
      · exact .inr (decimal_digit h)
    · exact .inr (decimal_digit hb)
  rcases hd with rfl | ⟨hlow,hhigh⟩
  · decide
  · have hne : ∀ c : UInt8, c < 0x30 → b ≠ c := by
      rintro c hc rfl
      exact UInt8.not_le.mpr hc hlow
    simp [isBlank,hne]

mutual
/-- Without its blanks the indented text is the compact one. -/
theorem squeeze_pretty (step : ℕ) : ∀ (current : ℕ) (j : Json) (rest : Bytes),
    squeeze .outside (pretty step current j ++ rest) = write j ++ squeeze .outside rest
  | _, .null, rest => squeeze_plain (s:=ofString "null") (by decide +kernel) rest
  | _, .boolean true, rest => squeeze_plain (s:=ofString "true") (by decide +kernel) rest
  | _, .boolean false, rest => squeeze_plain (s:=ofString "false") (by decide +kernel) rest
  | _, .integer n, rest => squeeze_plain (plain_writeInteger n) rest
  | _, .string s, rest => squeeze_quote s rest
  | _, .array [], rest => squeeze_plain (s:=[0x5B,0x5D]) (by decide +kernel) rest
  | current, .array (x::xs), rest => by
    have hx := squeeze_pretty step (current+step) x (prettyElems step current xs ++ rest)
    have hxs := squeeze_prettyElems step current xs rest
    simp only [pretty,write,List.cons_append,List.append_assoc]
    simp [squeeze,isBlank,squeeze_indentation,hx,hxs]
  | _, .object [], rest => squeeze_plain (s:=[0x7B,0x7D]) (by decide +kernel) rest
  | current, .object ((k,v)::fs), rest => by
    have hv := squeeze_pretty step (current+step) v (prettyFields step current fs ++ rest)
    have hfs := squeeze_prettyFields step current fs rest
    simp only [pretty,write,List.cons_append,List.append_assoc]
    simp [squeeze,isBlank,squeeze_indentation,squeeze_quote,hv,hfs]
theorem squeeze_prettyElems (step : ℕ) : ∀ (current : ℕ) (xs : List Json) (rest : Bytes),
    squeeze .outside (prettyElems step current xs ++ rest) =
      writeElems xs ++ squeeze .outside rest
  | current, [], rest => by
    simp only [prettyElems,writeElems,List.cons_append,List.append_assoc,List.nil_append]
    simp [squeeze,isBlank,squeeze_indentation]
  | current, x::xs, rest => by
    have hx := squeeze_pretty step (current+step) x (prettyElems step current xs ++ rest)
    have hxs := squeeze_prettyElems step current xs rest
    simp only [prettyElems,writeElems,List.cons_append,List.append_assoc]
    simp [squeeze,isBlank,squeeze_indentation,hx,hxs]
theorem squeeze_prettyFields (step : ℕ) : ∀ (current : ℕ) (fs : List (Bytes × Json))
    (rest : Bytes), squeeze .outside (prettyFields step current fs ++ rest) =
      writeFields fs ++ squeeze .outside rest
  | current, [], rest => by
    simp only [prettyFields,writeFields,List.cons_append,List.append_assoc,List.nil_append]
    simp [squeeze,isBlank,squeeze_indentation]
  | current, (k,v)::fs, rest => by
    have hv := squeeze_pretty step (current+step) v (prettyFields step current fs ++ rest)
    have hfs := squeeze_prettyFields step current fs rest
    simp only [prettyFields,writeFields,List.cons_append,List.append_assoc]
    simp [squeeze,isBlank,squeeze_indentation,squeeze_quote,hv,hfs]
end

/-- Every document with ordered members is read back from its indented text. -/
theorem parseSpaced_pretty (step : ℕ) {j : Json} (h : Ordered j) :
    parseSpaced (pretty step 0 j) = .ok j := by
  have hsqueeze := squeeze_pretty step 0 j []
  rw [List.append_nil] at hsqueeze
  rw [parseSpaced,hsqueeze]
  exact (congrArg parse (List.append_nil _)).trans (parse_write h)

/-- One member of one member, each two further in. -/
example : pretty 2 0 (.array [.array [.null]]) = ofString "[\n  [\n    null\n  ]\n]" := by decide +kernel

end Json
end Kivi
