import Kivi.Library.Json

/-! A reader for the compact texts of documents, and that it reads back what was written. -/
namespace Kivi
namespace Json

open Bytes (ofString)

def hexValue (d : UInt8) : UInt8 := if d < 0x3A then d-0x30 else d-0x57

def unescape (c : UInt8) : Option UInt8 :=
  if c = 0x62 then some 0x08
  else if c = 0x74 then some 0x09
  else if c = 0x6E then some 0x0A
  else if c = 0x66 then some 0x0C
  else if c = 0x72 then some 0x0D
  else if c = 0x22 then some 0x22
  else if c = 0x5C then some 0x5C
  else none

def readEscape : Bytes → Option (UInt8 × Bytes)
  | [] => none
  | c::s =>
    if c = 0x75 then
      match s with
      | _::_::h::l::s => some (16*hexValue h+hexValue l,s)
      | _ => none
    else (unescape c).map fun b => (b,s)

def readChar : Bytes → Option (UInt8 × Bytes)
  | [] => none
  | b::s => if b = 0x5C then readEscape s else some (b,s)

/-- Read a string after its opening quotation mark; the bound is on its length. -/
def readString : ℕ → Bytes → Option (Bytes × Bytes)
  | 0, _ => none
  | n+1, s =>
    if s.head? = some 0x22 then some ([],s.tail)
    else do
      let c ← readChar s
      let r ← readString n c.2
      return (c.1::r.1,r.2)

def readQuoted (s : Bytes) : Option (Bytes × Bytes) := readString s.length s

def isDigit (b : UInt8) : Bool := decide (0x30 ≤ b ∧ b ≤ 0x39)

def readDecimal (s : Bytes) : Option (ℕ × Bytes) :=
  match s.takeWhile isDigit with
  | [] => none
  | d::ds => some (Nat.ofDigits 10 ((d::ds).reverse.map fun b => (b-0x30).toNat),
      s.dropWhile isDigit)

def readLiteral (rest : Bytes) (j : Json) (s : Bytes) : Option (Json × Bytes) :=
  if rest <+: s then some (j,s.drop rest.length) else none

mutual
/-- Read a document; the bound is on the number of nested calls. -/
def read : ℕ → Bytes → Option (Json × Bytes)
  | 0, _ => none
  | _, [] => none
  | n+1, b::s =>
    if b = 0x6E then readLiteral (ofString "ull") .null s
    else if b = 0x74 then readLiteral (ofString "rue") (.boolean true) s
    else if b = 0x66 then readLiteral (ofString "alse") (.boolean false) s
    else if b = 0x22 then (readQuoted s).map fun r => (.string r.1,r.2)
    else if b = 0x5B then
      if s.head? = some 0x5D then some (.array [],s.tail)
      else do
        let x ← read n s
        let xs ← readElems n x.2
        return (.array (x.1::xs.1),xs.2)
    else if b = 0x7B then
      if s.head? = some 0x7D then some (.object [],s.tail)
      else do
        let f ← readField n s
        let fs ← readFields n f.2
        return (.object (setField f.1.1 f.1.2 fs.1),fs.2)
    else if b = 0x2D then (readDecimal s).map fun r => (.integer (-r.1),r.2)
    else (readDecimal (b::s)).map fun r => (.integer r.1,r.2)
def readElems : ℕ → Bytes → Option (List Json × Bytes)
  | 0, _ => none
  | _, [] => none
  | n+1, b::s =>
    if b = 0x5D then some ([],s)
    else if b = 0x2C then do
      let x ← read n s
      let xs ← readElems n x.2
      return (x.1::xs.1,xs.2)
    else none
def readField : ℕ → Bytes → Option ((Bytes × Json) × Bytes)
  | 0, _ => none
  | n+1, s => do
    guard (s.head? = some 0x22)
    let k ← readQuoted s.tail
    guard (k.2.head? = some 0x3A)
    let v ← read n k.2.tail
    return ((k.1,v.1),v.2)
def readFields : ℕ → Bytes → Option (Fields × Bytes)
  | 0, _ => none
  | _, [] => none
  | n+1, b::s =>
    if b = 0x7D then some ([],s)
    else if b = 0x2C then do
      let f ← readField n s
      let fs ← readFields n f.2
      return (setField f.1.1 f.1.2 fs.1,fs.2)
    else none
end

def parse (s : Bytes) : Except Error Json :=
  match read (s.length+1) s with
  | some (j,[]) => .ok j
  | _ => .error .parseError

/-- The text that follows a value never goes on with a digit. -/
def Stops (s : Bytes) : Prop := ∀ b t, s = b::t → isDigit b = false

theorem stops_nil : Stops [] := by
  intro b t h
  cases h

theorem stops_cons {b : UInt8} (s : Bytes) (h : isDigit b = false) : Stops (b::s) := by
  rintro c t ⟨⟩
  exact h

theorem hexValue_hexDigit : ∀ n < 32, 16*hexValue (hexDigit (UInt8.ofNat n/16)) +
    hexValue (hexDigit (UInt8.ofNat n%16)) = UInt8.ofNat n := by
  decide

theorem readChar_short {b c : UInt8} (h : shortEscape b = some c) (s : Bytes) :
    readChar (0x5C::c::s) = some (b,s) := by
  unfold shortEscape at h
  split_ifs at h <;> cases h <;> subst b <;> rfl

theorem shortEscape_none {b : UInt8} (h : shortEscape b = none) : b ≠ 0x22 ∧ b ≠ 0x5C := by
  constructor <;> rintro rfl <;> exact absurd h (by decide)

theorem readChar_escape (b : UInt8) (s : Bytes) :
    readChar (escape b ++ s) = some (b,s) ∧ (escape b ++ s).head? ≠ some 0x22 := by
  unfold escape
  cases h : shortEscape b with
  | some c => exact ⟨readChar_short h s,by simp⟩
  | none =>
    obtain ⟨hq,hbs⟩ := shortEscape_none h
    by_cases hc : b ≤ 0x1F
    · have hb : b.toNat < 32 := Nat.lt_succ_of_le (UInt8.le_iff_toNat_le.mp hc)
      have hv := hexValue_hexDigit b.toNat hb
      rw [UInt8.ofNat_toNat] at hv
      simp [hc,readChar,readEscape,hv]
    · simp [hc,readChar,hq,hbs]

theorem readString_quote (s rest : Bytes) {n : ℕ} (hn : s.length < n) :
    readString n (s.flatMap escape ++ 0x22::rest) = some (s,rest) := by
  induction s generalizing n with
  | nil =>
    cases n with
    | zero => simp at hn
    | succ n => simp [readString]
  | cons b s ih =>
    cases n with
    | zero => simp at hn
    | succ n =>
      obtain ⟨hr,hh⟩ := readChar_escape b (s.flatMap escape ++ 0x22::rest)
      have ht := ih (n:=n) (by simpa using hn)
      rw [List.flatMap_cons,List.append_assoc,readString,if_neg hh,hr]
      simp [ht]

theorem length_le_flatMap_escape (s : Bytes) : s.length ≤ (s.flatMap escape).length := by
  induction s with
  | nil => simp
  | cons b s ih =>
    have hb := List.length_pos_of_ne_nil (escape_spec b).2.1
    simp only [List.flatMap_cons,List.length_append,List.length_cons]
    omega

theorem readQuoted_quote (s rest : Bytes) :
    readQuoted (s.flatMap escape ++ 0x22::rest) = some (s,rest) := by
  refine readString_quote s rest ?_
  have := length_le_flatMap_escape s
  simp only [List.length_append,List.length_cons]
  omega

theorem decimal_isDigit (n : ℕ) : ∀ b ∈ decimal n, isDigit b = true := fun _ hb =>
  decide_eq_true (decimal_digit hb)

theorem ofDigits_decimal (n : ℕ) :
    Nat.ofDigits 10 ((decimal n).reverse.map fun b => (b-0x30).toNat) = n := by
  unfold decimal
  by_cases hn : n = 0
  · subst n
    decide
  · have hall : ∀ d < 10, (0x30+UInt8.ofNat d-0x30).toNat = d := by decide
    have hmap : (Nat.digits 10 n).map (fun d => (0x30+UInt8.ofNat d-0x30).toNat) =
        Nat.digits 10 n := by
      conv_rhs => rw [← List.map_id (Nat.digits 10 n)]
      exact List.map_congr_left fun d hd => hall d (Nat.digits_lt_base (by norm_num) hd)
    rw [if_neg hn,← List.map_reverse,List.reverse_reverse,List.map_map]
    exact (congrArg (Nat.ofDigits 10) hmap).trans (Nat.ofDigits_digits 10 n)

theorem decimal_ne_nil (n : ℕ) : decimal n ≠ [] := by
  unfold decimal
  split
  · simp
  · simpa using Nat.digits_ne_nil_iff_ne_zero.mpr ‹_›

theorem readDecimal_decimal (n : ℕ) {rest : Bytes} (hr : Stops rest) :
    readDecimal (decimal n ++ rest) = some (n,rest) := by
  have hd := decimal_isDigit n
  have hrest : rest.takeWhile isDigit = [] ∧ rest.dropWhile isDigit = rest := by
    cases rest with
    | nil => exact ⟨rfl,rfl⟩
    | cons b t => simp [hr b t rfl]
  have htake : (decimal n ++ rest).takeWhile isDigit = decimal n := by
    rw [List.takeWhile_append_of_pos hd,hrest.1,List.append_nil]
  have hdrop : (decimal n ++ rest).dropWhile isDigit = rest := by
    rw [List.dropWhile_append_of_pos hd,hrest.2]
  obtain ⟨d,ds,hds⟩ := List.exists_cons_of_ne_nil (decimal_ne_nil n)
  have hv := ofDigits_decimal n
  rw [hds] at hv
  unfold readDecimal
  rw [htake,hdrop,hds]
  exact congrArg (fun m => some (m,rest)) hv

theorem readLiteral_append (t : Bytes) (j : Json) (rest : Bytes) :
    readLiteral t j (t ++ rest) = some (j,rest) := by
  simp [readLiteral]

theorem setField_front {f : Bytes × Json} {fs : Fields} (h : ∀ g ∈ fs, f.1 < g.1) :
    setField f.1 f.2 fs = f::fs := by
  cases fs with
  | nil => rfl
  | cons g gs =>
    have hlt := h g (by simp)
    have hne : f.1 ≠ g.1 := fun he => List.lt_irrefl g.1 (he ▸ hlt)
    simp [setField,hlt,hne]

theorem stops_writeElems (xs : List Json) (rest : Bytes) : Stops (writeElems xs ++ rest) := by
  cases xs <;> exact stops_cons _ (by decide)

theorem stops_writeFields (fs : Fields) (rest : Bytes) : Stops (writeFields fs ++ rest) := by
  cases fs <;> exact stops_cons _ (by decide)

theorem read_integer (n : ℕ) (z : ℤ) {rest : Bytes} (hr : Stops rest) :
    read (n+1) (writeInteger z ++ rest) = some (.integer z,rest) := by
  have hdec := readDecimal_decimal z.natAbs hr
  unfold writeInteger
  by_cases hz : z < 0
  · have hneg : -|z| = z := by rw [abs_of_neg hz,neg_neg]
    rw [if_pos hz,List.cons_append,read]
    simp [hdec,hneg]
  · have hpos : |z| = z := abs_of_nonneg (not_lt.mp hz)
    obtain ⟨d,ds,hds⟩ := List.exists_cons_of_ne_nil (decimal_ne_nil z.natAbs)
    have hd : 0x30 ≤ d ∧ d ≤ 0x39 := decimal_digit (n:=z.natAbs) (by simp [hds])
    rw [if_neg hz]
    rw [hds,List.cons_append] at hdec ⊢
    have hne : ∀ c : UInt8, c < 0x30 ∨ 0x39 < c → d ≠ c := by
      rintro c hc rfl
      rcases hc with hc | hc
      · exact absurd hd.1 (UInt8.not_le.mpr hc)
      · exact absurd hd.2 (UInt8.not_le.mpr hc)
    rw [read]
    simp [hne,hdec,hpos]

theorem write_head (j : Json) (rest : Bytes) : (write j ++ rest).head? ≠ some 0x5D := by
  cases j with
  | null => simp [write,ofString]
  | boolean b => cases b <;> simp [write,ofString]
  | integer z =>
    obtain ⟨d,ds,hds⟩ := List.exists_cons_of_ne_nil (decimal_ne_nil z.natAbs)
    have hd : 0x30 ≤ d ∧ d ≤ 0x39 := decimal_digit (n:=z.natAbs) (by simp [hds])
    have hne : d ≠ 0x5D := by
      rintro rfl
      exact absurd hd.2 (by decide)
    by_cases hz : z < 0 <;> simp [write,writeInteger,hz,hds,hne]
  | string s => simp [write,quote]
  | array xs => cases xs <;> simp [write]
  | object fs => cases fs <;> simp [write]

mutual
/-- The reader inverts the writer on documents with ordered members. -/
theorem read_write : ∀ (j : Json) (n : ℕ) (rest : Bytes), Ordered j → (write j).length < n →
    Stops rest → read n (write j ++ rest) = some (j,rest)
  | j, 0, _, _, hn, _ => absurd hn (Nat.not_lt_zero _)
  | .null, n+1, rest, _, _, _ => readLiteral_append (ofString "ull") .null rest
  | .boolean true, n+1, rest, _, _, _ => readLiteral_append (ofString "rue") (.boolean true) rest
  | .boolean false, n+1, rest, _, _, _ =>
    readLiteral_append (ofString "alse") (.boolean false) rest
  | .integer z, n+1, rest, _, _, hr => read_integer n z hr
  | .string s, n+1, rest, _, _, _ => by
    simp only [write,quote,List.cons_append,List.append_assoc,List.nil_append,read]
    simp [readQuoted_quote]
  | .array [], n+1, rest, _, _, _ => by simp [write,read]
  | .array (x::xs), n+1, rest, ho, hn, _ => by
    simp only [Ordered,OrderedElems] at ho
    simp only [write,List.length_cons,List.length_append] at hn
    have hx := read_write x n (writeElems xs ++ rest) ho.1 (by omega) (stops_writeElems xs rest)
    have hxs := readElems_write xs n rest ho.2 (by omega)
    have hh := write_head x (writeElems xs ++ rest)
    simp only [write,List.cons_append,List.append_assoc,read]
    simp [-List.head?_append,hh,hx,hxs]
  | .object [], n+1, rest, _, _, _ => by simp [write,read]
  | .object ((k,v)::fs), n+1, rest, ho, hn, _ => by
    simp only [Ordered,OrderedFields,List.pairwise_cons] at ho
    simp only [write,List.length_cons,List.length_append] at hn
    have hf := readField_write k v n (writeFields fs ++ rest) ho.2.1
      (by simp only [List.length_append,List.length_cons]; omega) (stops_writeFields fs rest)
    have hfs := readFields_write fs n rest ho.1.2 ho.2.2 (by omega)
    have hh : (quote k ++ 0x3A :: (write v ++ (writeFields fs ++ rest))).head? ≠ some 0x7D := by
      simp [quote]
    have hs := setField_front (f:=(k,v)) ho.1.1
    simp only [write,List.cons_append,List.append_assoc,read]
    simp only [List.append_assoc,List.cons_append] at hf
    simp [-List.head?_append,hh,hf,hfs,hs]
theorem readElems_write : ∀ (xs : List Json) (n : ℕ) (rest : Bytes), OrderedElems xs →
    (writeElems xs).length ≤ n → readElems n (writeElems xs ++ rest) = some (xs,rest)
  | [], 0, _, _, hn => absurd hn (by simp [writeElems])
  | _::_, 0, _, _, hn => absurd hn (by simp [writeElems])
  | [], n+1, rest, _, _ => by simp [writeElems,readElems]
  | x::xs, n+1, rest, ho, hn => by
    simp only [OrderedElems] at ho
    simp only [writeElems,List.length_cons,List.length_append] at hn
    have hpos := List.length_pos_of_ne_nil (l:=writeElems xs) (by cases xs <;> simp [writeElems])
    have hx := read_write x n (writeElems xs ++ rest) ho.1 (by omega) (stops_writeElems xs rest)
    have hxs := readElems_write xs n rest ho.2 (by omega)
    simp only [writeElems,List.cons_append,List.append_assoc,readElems]
    simp [hx,hxs]
theorem readField_write : ∀ (k : Bytes) (v : Json) (n : ℕ) (rest : Bytes), Ordered v →
    (quote k ++ 0x3A :: write v).length ≤ n → Stops rest →
    readField n (quote k ++ 0x3A :: write v ++ rest) = some ((k,v),rest)
  | k, _, 0, _, _, hn, _ => absurd hn (by simp [quote])
  | k, v, n+1, rest, ho, hn, hr => by
    simp only [quote,List.length_append,List.length_cons] at hn
    have hv := read_write v n rest ho (by omega) hr
    simp only [quote,List.cons_append,List.append_assoc,List.nil_append,readField]
    simp [readQuoted_quote,hv]
theorem readFields_write : ∀ (fs : Fields) (n : ℕ) (rest : Bytes),
    fs.Pairwise (fun f g => f.1 < g.1) → OrderedFields fs → (writeFields fs).length ≤ n →
    readFields n (writeFields fs ++ rest) = some (fs,rest)
  | [], 0, _, _, _, hn => absurd hn (by simp [writeFields])
  | _::_, 0, _, _, _, hn => absurd hn (by simp [writeFields])
  | [], n+1, rest, _, _, _ => by simp [writeFields,readFields]
  | (k,v)::fs, n+1, rest, hp, ho, hn => by
    simp only [OrderedFields] at ho
    rw [List.pairwise_cons] at hp
    simp only [writeFields,List.length_cons,List.length_append] at hn
    have hf := readField_write k v n (writeFields fs ++ rest) ho.1
      (by simp only [List.length_append,List.length_cons]; omega) (stops_writeFields fs rest)
    have hfs := readFields_write fs n rest hp.2 ho.2 (by omega)
    simp only [List.append_assoc,List.cons_append] at hf
    simp only [writeFields,List.cons_append,List.append_assoc,readFields]
    have hs := setField_front (f:=(k,v)) hp.1
    simp [hf,hfs,hs]
end

/-- Every document with ordered members is read back from its text. -/
theorem parse_write {j : Json} (h : Ordered j) : parse (write j) = .ok j := by
  have hr := read_write j ((write j).length+1) [] h (by omega) stops_nil
  rw [List.append_nil] at hr
  simp only [parse,hr]

/-- A parser that inverts `dump` on the documents it accepts whose integers fit into 64 bits, up
to how these are stored. -/
structure Parser where
  parse : Bytes → Except Error Json
  parse_write : ∀ j, Ordered j → clean j = true → sized j = true → parse (write j) = .ok j

def Parser.reference : Parser := ⟨Json.parse,fun _ h _ _ => Json.parse_write h⟩

end Json
end Kivi
