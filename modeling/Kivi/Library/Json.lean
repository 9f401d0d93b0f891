import Kivi.Library.Utf8

/-! JSON documents with ordered object members, and their compact text. -/
namespace Kivi

/-- A document; the members of an object stand in the order of their keys. -/
inductive Json
  | null
  | boolean (b : Bool)
  | integer (n : ℤ)
  | string (s : Bytes)
  | array (xs : List Json)
  | object (fields : List (Bytes × Json))

namespace Json

open Bytes (ofString isUtf8 decode decodeAll Continuing)

abbrev Fields := List (Bytes × Json)

inductive Error
  | parseError | typeError | outOfRange
  deriving DecidableEq

/-- Assign a member, keeping the keys in order and every key once. -/
def setField (key : Bytes) (value : Json) : Fields → Fields
  | [] => [(key,value)]
  | f::fs =>
    if key = f.1 then (key,value) :: fs
    else if key < f.1 then (key,value) :: f :: fs
    else f :: setField key value fs

def field? (key : Bytes) : Fields → Option Json
  | [] => none
  | f::fs => if key = f.1 then some f.2 else field? key fs

/-- `j.at(key)`. -/
def atKey (key : Bytes) : Json → Except Error Json
  | .object fs =>
    match field? key fs with
    | some v => .ok v
    | none => .error .outOfRange
  | _ => .error .typeError

/-- `get<long long>()`. -/
def getInt64 : Json → Except Error Int64
  | .integer n => .ok (Int64.ofInt n)
  | .boolean b => .ok (if b then 1 else 0)
  | _ => .error .typeError

/-- `get<int>()`. -/
def getInt32 : Json → Except Error Int32
  | .integer n => .ok (Int32.ofInt n)
  | .boolean b => .ok (if b then 1 else 0)
  | _ => .error .typeError

def getString : Json → Except Error Bytes
  | .string s => .ok s
  | _ => .error .typeError

def getStringArray : Json → Except Error (List Bytes)
  | .array xs => xs.mapM getString
  | _ => .error .typeError

/-- The members of `get<std::unordered_map<std::string, std::string>>()`. -/
def getStringMap : Json → Except Error (List (Bytes × Bytes))
  | .object fs => fs.mapM fun f => do return (f.1,← f.2.getString)
  | _ => .error .typeError

/-- What a range-based loop over a document visits; a scalar counts as its own element. -/
def elements : Json → List Json
  | .null => []
  | .array xs => xs
  | .object fs => fs.map Prod.snd
  | j => [j]

/-- Assign members to an object one after another. -/
def assign (fs : Fields) (gs : Fields) : Fields := gs.foldl (fun fs g => setField g.1 g.2 fs) fs

def ofFields (gs : Fields) : Json := .object (assign [] gs)

def hexDigit (n : UInt8) : UInt8 := if n < 10 then 0x30+n else 0x57+n

def shortEscape (b : UInt8) : Option UInt8 :=
  if b = 0x08 then some 0x62
  else if b = 0x09 then some 0x74
  else if b = 0x0A then some 0x6E
  else if b = 0x0C then some 0x66
  else if b = 0x0D then some 0x72
  else if b = 0x22 then some 0x22
  else if b = 0x5C then some 0x5C
  else none

/-- Control characters are escaped; the bytes of other characters are copied. -/
def escape (b : UInt8) : Bytes :=
  match shortEscape b with
  | some c => [0x5C,c]
  | none =>
    if b ≤ 0x1F then [0x5C,0x75,0x30,0x30,hexDigit (b/16),hexDigit (b%16)] else [b]

def quote (s : Bytes) : Bytes := 0x22 :: (s.flatMap escape ++ [0x22])

def decimal (n : ℕ) : Bytes :=
  if n = 0 then [0x30] else (Nat.digits 10 n).reverse.map fun d => 0x30+UInt8.ofNat d

def writeInteger (n : ℤ) : Bytes :=
  if n < 0 then 0x2D :: decimal n.natAbs else decimal n.natAbs

mutual
/-- The text without blanks; the strings are taken to be well-formed. -/
def write : Json → Bytes
  | .null => ofString "null"
  | .boolean true => ofString "true"
  | .boolean false => ofString "false"
  | .integer n => writeInteger n
  | .string s => quote s
  | .array [] => [0x5B,0x5D]
  | .array (x::xs) => 0x5B :: (write x ++ writeElems xs)
  | .object [] => [0x7B,0x7D]
  | .object ((k,v)::fs) => 0x7B :: (quote k ++ 0x3A :: (write v ++ writeFields fs))
def writeElems : List Json → Bytes
  | [] => [0x5D]
  | x::xs => 0x2C :: (write x ++ writeElems xs)
def writeFields : List (Bytes × Json) → Bytes
  | [] => [0x7D]
  | (k,v)::fs => 0x2C :: (quote k ++ 0x3A :: (write v ++ writeFields fs))
end

mutual
/-- Every string and every key of the document is well-formed UTF-8. -/
def clean : Json → Bool
  | .string s => isUtf8 s
  | .array xs => cleanElems xs
  | .object fs => cleanFields fs
  | _ => true
def cleanElems : List Json → Bool
  | [] => true
  | x::xs => clean x && cleanElems xs
def cleanFields : List (Bytes × Json) → Bool
  | [] => true
  | (k,v)::fs => isUtf8 k && clean v && cleanFields fs
end

/-- `j.dump()`: a string that is not UTF-8 is a type error. -/
def dump (j : Json) : Except Error Bytes := if j.clean then .ok j.write else .error .typeError

mutual
/-- Every integer of the document fits into 64 bits, with or without a sign. -/
def sized : Json → Bool
  | .integer n => decide (-2^63 ≤ n ∧ n < 2^64)
  | .array xs => sizedElems xs
  | .object fs => sizedFields fs
  | _ => true
def sizedElems : List Json → Bool
  | [] => true
  | x::xs => sized x && sizedElems xs
def sizedFields : List (Bytes × Json) → Bool
  | [] => true
  | (_,v)::fs => sized v && sizedFields fs
end

mutual
/-- The members of every object of the document are in strict order of their keys. -/
def Ordered : Json → Prop
  | .array xs => OrderedElems xs
  | .object fs => fs.Pairwise (fun f g => f.1 < g.1) ∧ OrderedFields fs
  | _ => True
def OrderedElems : List Json → Prop
  | [] => True
  | x::xs => Ordered x ∧ OrderedElems xs
def OrderedFields : List (Bytes × Json) → Prop
  | [] => True
  | (_,v)::fs => Ordered v ∧ OrderedFields fs
end

/-! ### Members -/

@[simp] theorem field?_setField (k key : Bytes) (v : Json) (fs : Fields) :
    field? k (setField key v fs) = if k = key then some v else field? k fs := by
  induction fs with
  | nil => by_cases h : k = key <;> simp [setField,field?,h]
  | cons f fs ih =>
    by_cases h : key = f.1
    · by_cases hk : k = key <;> simp_all [setField,field?]
    · by_cases hlt : key < f.1
      · by_cases hk : k = key <;> simp [setField,field?,h,hlt,hk]
      · by_cases hf : k = f.1
        · have hne : ¬ f.1 = key := fun he => h he.symm
          simp [setField,field?,h,hlt,hf,hne]
        · simp [setField,field?,h,hlt,hf,ih]

theorem mem_setField {f : Bytes × Json} {key : Bytes} {v : Json} {fs : Fields}
    (h : f ∈ setField key v fs) : f = (key,v) ∨ f ∈ fs := by
  induction fs with
  | nil => simpa [setField] using h
  | cons g gs ih =>
    simp only [setField] at h
    split_ifs at h
    · rcases List.mem_cons.mp h with h | h
      · exact .inl h
      · exact .inr (by simp [h])
    · rcases List.mem_cons.mp h with h | h
      · exact .inl h
      · exact .inr h
    · rcases List.mem_cons.mp h with h | h
      · exact .inr (by simp [h])
      · rcases ih h with h | h
        · exact .inl h
        · exact .inr (by simp [h])

theorem setField_pairwise {key : Bytes} {v : Json} {fs : Fields}
    (h : fs.Pairwise fun f g => f.1 < g.1) :
    (setField key v fs).Pairwise fun f g => f.1 < g.1 := by
  induction fs with
  | nil => simp [setField]
  | cons g gs ih =>
    obtain ⟨hg,hgs⟩ := List.pairwise_cons.mp h
    simp only [setField]
    split_ifs with heq hlt
    · exact List.pairwise_cons.mpr ⟨fun f hf => heq ▸ hg f hf,hgs⟩
    · refine List.pairwise_cons.mpr ⟨fun f hf => ?_,h⟩
      rcases List.mem_cons.mp hf with rfl | hf
      · exact hlt
      · exact List.lt_trans hlt (hg f hf)
    · have hgk : g.1 < key := by
        rcases Std.lt_trichotomy key g.1 with h' | h' | h'
        · exact absurd h' hlt
        · exact absurd h' heq
        · exact h'
      refine List.pairwise_cons.mpr ⟨fun f hf => ?_,ih hgs⟩
      rcases mem_setField hf with rfl | hf
      · exact hgk
      · exact hg f hf

theorem orderedFields_iff (fs : Fields) : OrderedFields fs ↔ ∀ f ∈ fs, Ordered f.2 := by
  induction fs with
  | nil => simp [OrderedFields]
  | cons f fs ih => simp [OrderedFields,ih]

theorem cleanFields_iff (fs : Fields) :
    cleanFields fs = true ↔ ∀ f ∈ fs, isUtf8 f.1 = true ∧ clean f.2 = true := by
  induction fs with
  | nil => simp [cleanFields]
  | cons f fs ih => simp [cleanFields,ih]

theorem sizedFields_iff (fs : Fields) : sizedFields fs = true ↔ ∀ f ∈ fs, sized f.2 = true := by
  induction fs with
  | nil => simp [sizedFields]
  | cons f fs ih => simp [sizedFields,ih]

theorem mem_assign {f : Bytes × Json} {fs gs : Fields} (h : f ∈ assign fs gs) :
    f ∈ fs ∨ f ∈ gs := by
  induction gs generalizing fs with
  | nil => exact .inl h
  | cons g gs ih =>
    rcases ih h with h | h
    · rcases mem_setField h with rfl | h
      · exact .inr (by simp)
      · exact .inl h
    · exact .inr (by simp [h])

theorem assign_pairwise {fs : Fields} (gs : Fields) (h : fs.Pairwise fun f g => f.1 < g.1) :
    (assign fs gs).Pairwise fun f g => f.1 < g.1 := by
  induction gs generalizing fs with
  | nil => exact h
  | cons g gs ih => exact ih (setField_pairwise h)

theorem orderedElems_iff (xs : List Json) : OrderedElems xs ↔ ∀ x ∈ xs, Ordered x := by
  induction xs with
  | nil => simp [OrderedElems]
  | cons x xs ih => simp [OrderedElems,ih]

theorem cleanElems_iff (xs : List Json) : cleanElems xs = true ↔ ∀ x ∈ xs, clean x = true := by
  induction xs with
  | nil => simp [cleanElems]
  | cons x xs ih => simp [cleanElems,ih]

theorem sizedElems_iff (xs : List Json) : sizedElems xs = true ↔ ∀ x ∈ xs, sized x = true := by
  induction xs with
  | nil => simp [sizedElems]
  | cons x xs ih => simp [sizedElems,ih]

theorem ordered_ofFields {gs : Fields} (h : ∀ g ∈ gs, Ordered g.2) : Ordered (ofFields gs) := by
  rw [ofFields,Ordered,orderedFields_iff]
  refine ⟨assign_pairwise gs .nil,fun f hf => ?_⟩
  rcases mem_assign hf with hf | hf
  · simp at hf
  · exact h f hf

theorem clean_ofFields {gs : Fields} (h : ∀ g ∈ gs, isUtf8 g.1 = true ∧ clean g.2 = true) :
    clean (ofFields gs) = true := by
  rw [ofFields,clean,cleanFields_iff]
  intro f hf
  rcases mem_assign hf with hf | hf
  · simp at hf
  · exact h f hf

theorem sized_ofFields {gs : Fields} (h : ∀ g ∈ gs, sized g.2 = true) :
    sized (ofFields gs) = true := by
  rw [ofFields,sized,sizedFields_iff]
  intro f hf
  rcases mem_assign hf with hf | hf
  · simp at hf
  · exact h f hf

theorem dump_clean {j : Json} (h : clean j = true) : j.dump = .ok j.write := if_pos h

/-! ### Text -/

theorem decimal_digit {n : ℕ} {b : UInt8} (h : b ∈ decimal n) : 0x30 ≤ b ∧ b ≤ 0x39 := by
  have hall : ∀ d < 10, 0x30 ≤ 0x30+UInt8.ofNat d ∧ 0x30+UInt8.ofNat d ≤ 0x39 := by decide
  unfold decimal at h
  split at h
  · simp only [List.mem_singleton] at h
    subst b
    decide
  · obtain ⟨d,hd,rfl⟩ := List.mem_map.mp h
    exact hall d (Nat.digits_lt_base (by norm_num) (List.mem_reverse.mp hd))

theorem shortEscape_letter {b c : UInt8} (h : shortEscape b = some c) :
    b ≤ 0x7F ∧ c ≠ 0 ∧ c ≤ 0x7F := by
  unfold shortEscape at h
  split_ifs at h
  all_goals
    subst b
    obtain rfl := Option.some.inj h
    decide

theorem hexDigit_ascii {d : UInt8} (h : d.toNat < 16) : hexDigit d ≠ 0 ∧ hexDigit d ≤ 0x7F := by
  have hall : ∀ n < 16, hexDigit (UInt8.ofNat n) ≠ 0 ∧ hexDigit (UInt8.ofNat n) ≤ 0x7F := by
    decide +kernel
  have hd := hall d.toNat h
  rwa [UInt8.ofNat_toNat] at hd

theorem escape_spec (b : UInt8) : 0 ∉ escape b ∧ escape b ≠ [] ∧
    (b ≤ 0x7F → ∀ c ∈ escape b, c ≤ 0x7F) ∧ (¬ b ≤ 0x7F → escape b = [b]) := by
  unfold escape
  cases hshort : shortEscape b with
  | some c =>
    obtain ⟨hb,hc,hle⟩ := shortEscape_letter hshort
    simp [hb,Ne.symm hc,hle]
  | none =>
    by_cases hcontrol : b ≤ 0x1F
    · have hbyte := b.toNat_lt
      obtain ⟨hhigh,hhigh'⟩ := hexDigit_ascii (d:=b/16) (by rw [UInt8.toNat_div]; simp; omega)
      obtain ⟨hlow,hlow'⟩ := hexDigit_ascii (d:=b%16) (by rw [UInt8.toNat_mod]; simp; omega)
      have hb : b ≤ 0x7F := UInt8.le_trans hcontrol (by decide)
      simp [hcontrol,hb,Ne.symm hhigh,Ne.symm hlow,hhigh',hlow']
    · have hzero : (0 : UInt8) ≠ b := by
        rintro rfl
        exact hcontrol (by decide)
      simp [hcontrol,hzero]

/-- Escaping a byte leaves the decoder where the byte itself would have. -/
theorem decodeAll_escape {q : Bytes.Owed} (hq : Continuing q) (b : UInt8) :
    decodeAll q (escape b) = decode q b := by
  obtain ⟨_,hne,hascii,hcopy⟩ := escape_spec b
  by_cases hb : b ≤ 0x7F
  · by_cases hnil : q = []
    · subst q
      rw [Bytes.decode_ascii hb,← Bytes.isUtf8_iff]
      exact Bytes.isUtf8_ascii (hascii hb)
    · obtain ⟨c,cs,hc⟩ := List.exists_cons_of_ne_nil hne
      have hc' : c ≤ 0x7F := hascii hb c (by simp [hc])
      rw [Bytes.decode_ascii_owed hq hnil hb,hc,decodeAll,
        Bytes.decode_ascii_owed hq hnil hc',Option.bind_none]
  · rw [hcopy hb,decodeAll]
    cases h : decode q b <;> rfl

theorem decodeAll_flatMap_escape {q : Bytes.Owed} (hq : Continuing q) (s : Bytes) :
    decodeAll q (s.flatMap escape) = decodeAll q s := by
  induction s generalizing q with
  | nil => rfl
  | cons b s ih =>
    rw [List.flatMap_cons,Bytes.decodeAll_append,decodeAll_escape hq,decodeAll]
    cases h : decode q b with
    | none => rfl
    | some q' => exact ih (Bytes.decode_continuing hq h)

theorem isUtf8_quote {s : Bytes} (h : isUtf8 s = true) : isUtf8 (quote s) = true := by
  have hbody : isUtf8 (s.flatMap escape) = true := by
    rw [Bytes.isUtf8_iff,decodeAll_flatMap_escape (by simp [Continuing])]
    exact Bytes.isUtf8_iff.mp h
  exact Bytes.isUtf8_append (s:=[0x22]) (by decide) (Bytes.isUtf8_append hbody (by decide))

theorem zero_notMem_quote (s : Bytes) : 0 ∉ quote s := by
  simp only [quote,List.mem_cons,List.mem_append,List.mem_flatMap,List.not_mem_nil,or_false]
  rintro (h | ⟨b,_,hb⟩ | h)
  · exact absurd h (by decide)
  · exact (escape_spec b).1 hb
  · exact absurd h (by decide)

theorem mem_writeInteger {n : ℤ} {b : UInt8} (h : b ∈ writeInteger n) :
    b = 0x2D ∨ 0x30 ≤ b ∧ b ≤ 0x39 := by
  unfold writeInteger at h
  split at h
  · rcases List.mem_cons.mp h with h | h
    · exact .inl h
    · exact .inr (decimal_digit h)
  · exact .inr (decimal_digit h)

theorem writeInteger_digit {n : ℤ} {b : UInt8} (h : b ∈ writeInteger n) :
    b ≠ 0 ∧ b ≤ 0x7F := by
  rcases mem_writeInteger h with rfl | ⟨h₁,h₂⟩
  · decide
  · constructor
    · rintro rfl
      exact absurd h₁ (by decide)
    · exact UInt8.le_trans h₂ (by decide)

mutual
theorem zero_notMem_write : ∀ j : Json, 0 ∉ write j
  | .null => by decide
  | .boolean true => by decide
  | .boolean false => by decide
  | .integer _ => fun h => (writeInteger_digit h).1 rfl
  | .string s => zero_notMem_quote s
  | .array [] => by decide
  | .array (x::xs) => by
    simp [write,zero_notMem_write x,zero_notMem_writeElems xs]
  | .object [] => by decide
  | .object ((k,v)::fs) => by
    simp [write,zero_notMem_quote k,zero_notMem_write v,zero_notMem_writeFields fs]
theorem zero_notMem_writeElems : ∀ xs : List Json, 0 ∉ writeElems xs
  | [] => by decide
  | x::xs => by simp [writeElems,zero_notMem_write x,zero_notMem_writeElems xs]
theorem zero_notMem_writeFields : ∀ fs : List (Bytes × Json), 0 ∉ writeFields fs
  | [] => by decide
  | (k,v)::fs => by
    simp [writeFields,zero_notMem_quote k,zero_notMem_write v,zero_notMem_writeFields fs]
end

theorem isUtf8_cons {b : UInt8} {s : Bytes} (hb : b ≤ 0x7F) (hs : isUtf8 s = true) :
    isUtf8 (b::s) = true :=
  Bytes.isUtf8_append (s:=[b]) (Bytes.isUtf8_ascii (by simpa using hb)) hs

mutual
/-- The text of a clean document is itself well-formed, so that it can be a string of another. -/
theorem isUtf8_write : ∀ j : Json, clean j = true → isUtf8 (write j) = true
  | .null, _ => by decide
  | .boolean true, _ => by decide
  | .boolean false, _ => by decide
  | .integer _, _ => Bytes.isUtf8_ascii fun _ hb => (writeInteger_digit hb).2
  | .string _, h => isUtf8_quote h
  | .array [], _ => by decide
  | .array (x::xs), h => by
    simp only [clean,cleanElems,Bool.and_eq_true] at h
    exact isUtf8_cons (by decide)
      (Bytes.isUtf8_append (isUtf8_write x h.1) (isUtf8_writeElems xs h.2))
  | .object [], _ => by decide
  | .object ((k,v)::fs), h => by
    simp only [clean,cleanFields,Bool.and_eq_true] at h
    exact isUtf8_cons (by decide) (Bytes.isUtf8_append (isUtf8_quote h.1.1)
      (isUtf8_cons (by decide)
        (Bytes.isUtf8_append (isUtf8_write v h.1.2) (isUtf8_writeFields fs h.2))))
theorem isUtf8_writeElems : ∀ xs : List Json, cleanElems xs = true → isUtf8 (writeElems xs) = true
  | [], _ => by decide
  | x::xs, h => by
    simp only [cleanElems,Bool.and_eq_true] at h
    exact isUtf8_cons (by decide)
      (Bytes.isUtf8_append (isUtf8_write x h.1) (isUtf8_writeElems xs h.2))
theorem isUtf8_writeFields : ∀ fs : List (Bytes × Json), cleanFields fs = true →
    isUtf8 (writeFields fs) = true
  | [], _ => by decide
  | (k,v)::fs, h => by
    simp only [cleanFields,Bool.and_eq_true] at h
    exact isUtf8_cons (by decide) (Bytes.isUtf8_append (isUtf8_quote h.1.1)
      (isUtf8_cons (by decide)
        (Bytes.isUtf8_append (isUtf8_write v h.1.2) (isUtf8_writeFields fs h.2))))
end

end Json
end Kivi
