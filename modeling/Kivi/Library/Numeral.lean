import Kivi.Library.JsonReader

/-! The integer at the start of a text, as the conversions of C read it: blanks, a sign, digits,
and whatever comes behind. -/
namespace Kivi
namespace Numeral

open Json (decimal decimal_digit decimal_isDigit decimal_ne_nil isDigit readDecimal
  readDecimal_decimal Stops writeInteger)

variable {blank : UInt8 → Bool}

def readUnsigned (s : Bytes) : Option ℤ := (readDecimal s).map fun r => (r.1 : ℤ)

def readSigned : Bytes → Option ℤ
  | [] => none
  | b::s =>
    if b = 0x2D then (readUnsigned s).map (-·)
    else if b = 0x2B then readUnsigned s
    else readUnsigned (b::s)

def read (blank : UInt8 → Bool) (s : Bytes) : Option ℤ := readSigned (s.dropWhile blank)

structure Blanks (blank : UInt8 → Bool) : Prop where
  minus : blank 0x2D = false
  plus : blank 0x2B = false
  digit : ∀ b, isDigit b = true → blank b = false

theorem readUnsigned_decimal (n : ℕ) {rest : Bytes} (hr : Stops rest) :
    readUnsigned (decimal n ++ rest) = some (n : ℤ) := by
  rw [readUnsigned,readDecimal_decimal n hr]
  rfl

theorem readSigned_digit {b : UInt8} (s : Bytes) (h : isDigit b = true) :
    readSigned (b::s) = readUnsigned (b::s) := by
  have hb : 0x30 ≤ b ∧ b ≤ 0x39 := of_decide_eq_true h
  have hminus : b ≠ 0x2D := by grind
  have hplus : b ≠ 0x2B := by grind
  rw [readSigned,if_neg hminus,if_neg hplus]

theorem readSigned_decimal (n : ℕ) {rest : Bytes} (hr : Stops rest) :
    readSigned (decimal n ++ rest) = some (n : ℤ) := by
  obtain ⟨d,ds,hds⟩ := List.exists_cons_of_ne_nil (decimal_ne_nil n)
  have hd : isDigit d = true := decimal_isDigit n d (by simp [hds])
  have hread := readUnsigned_decimal n hr
  rw [hds,List.cons_append] at hread ⊢
  rw [readSigned_digit _ hd,hread]

theorem readSigned_writeInteger (n : ℤ) {rest : Bytes} (hr : Stops rest) :
    readSigned (writeInteger n ++ rest) = some n := by
  unfold writeInteger
  by_cases hn : n < 0
  · rw [if_pos hn,List.cons_append,readSigned,if_pos rfl,readUnsigned_decimal _ hr]
    exact congrArg some (show -(n.natAbs : ℤ) = n by omega)
  · rw [if_neg hn,readSigned_decimal _ hr]
    exact congrArg some (by omega)

theorem writeInteger_blank (hb : Blanks blank) (n : ℤ) :
    ∀ b ∈ writeInteger n, blank b = false := by
  intro b h
  unfold writeInteger at h
  by_cases hn : n < 0
  · rw [if_pos hn] at h
    rcases List.mem_cons.mp h with rfl | h
    · exact hb.minus
    · exact hb.digit b (decimal_isDigit _ b h)
  · rw [if_neg hn] at h
    exact hb.digit b (decimal_isDigit _ b h)

theorem writeInteger_ne_nil (n : ℤ) : writeInteger n ≠ [] := by
  unfold writeInteger
  split
  · simp
  · exact decimal_ne_nil _

/-- What is written is read back, with blanks in front and any text behind that does not go on
with a digit. -/
theorem read_writeInteger (hb : Blanks blank) {before rest : Bytes}
    (hbefore : ∀ b ∈ before, blank b = true) (n : ℤ) (hr : Stops rest) :
    read blank (before ++ writeInteger n ++ rest) = some n := by
  obtain ⟨d,ds,hds⟩ := List.exists_cons_of_ne_nil (writeInteger_ne_nil n)
  have hd : blank d = false := writeInteger_blank hb n d (by simp [hds])
  have hread := readSigned_writeInteger n hr
  have hdrop : (before ++ writeInteger n ++ rest).dropWhile blank = writeInteger n ++ rest := by
    rw [List.append_assoc,List.dropWhile_append_of_pos hbefore,hds,List.cons_append,
      List.dropWhile_cons_of_neg (by simp [hd])]
  rw [read,hdrop,hread]

end Numeral
end Kivi
