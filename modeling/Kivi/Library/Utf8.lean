import Mathlib

/-! Byte strings and the well-formed byte sequences of UTF-8. -/
namespace Kivi

abbrev Bytes := List UInt8

namespace Bytes

def ofString (s : String) : Bytes := s.toList.map fun c => UInt8.ofNat c.toNat

/-- The ranges the bytes still owed to the current character must lie in. -/
abbrev Owed := List (UInt8 × UInt8)

/-- The ranges of the bytes that follow a lead byte: no overlong form, no surrogate and
nothing past the last code point has a lead. -/
def follow (b : UInt8) : Option Owed :=
  if b ≤ 0x7F then some []
  else if b < 0xC2 then none
  else if b ≤ 0xDF then some [(0x80,0xBF)]
  else if b = 0xE0 then some [(0xA0,0xBF),(0x80,0xBF)]
  else if b = 0xED then some [(0x80,0x9F),(0x80,0xBF)]
  else if b ≤ 0xEF then some [(0x80,0xBF),(0x80,0xBF)]
  else if b = 0xF0 then some [(0x90,0xBF),(0x80,0xBF),(0x80,0xBF)]
  else if b ≤ 0xF3 then some [(0x80,0xBF),(0x80,0xBF),(0x80,0xBF)]
  else if b = 0xF4 then some [(0x80,0x8F),(0x80,0xBF),(0x80,0xBF)]
  else none

def decode : Owed → UInt8 → Option Owed
  | [], b => follow b
  | r::rs, b => if r.1 ≤ b ∧ b ≤ r.2 then some rs else none

/-- Decode a byte string, from the middle of a character when bytes are owed. -/
def decodeAll : Owed → Bytes → Option Owed
  | q, [] => some q
  | q, b::s => (decode q b).bind fun q => decodeAll q s

/-- The string is a sequence of whole characters. -/
def isUtf8 (s : Bytes) : Bool := decide (decodeAll [] s = some [])

example : isUtf8 [0x6B,0xC3,0xA9,0xF0,0x9F,0x94,0x91] = true := by decide
example : isUtf8 [0xED,0xA0,0x80] = false := by decide

theorem decodeAll_append (q : Owed) (s t : Bytes) :
    decodeAll q (s ++ t) = (decodeAll q s).bind fun q => decodeAll q t := by
  induction s generalizing q with
  | nil => rfl
  | cons b s ih =>
    simp only [List.cons_append,decodeAll,Option.bind_assoc]
    congr 1
    funext q'
    exact ih q'

theorem decode_ascii {b : UInt8} (h : b ≤ 0x7F) : decode [] b = some [] := if_pos h

theorem isUtf8_iff {s : Bytes} : isUtf8 s = true ↔ decodeAll [] s = some [] := decide_eq_true_iff

theorem isUtf8_append {s t : Bytes} (hs : isUtf8 s = true) (ht : isUtf8 t = true) :
    isUtf8 (s ++ t) = true := by
  rw [isUtf8_iff] at *
  rw [decodeAll_append,hs,Option.bind_some,ht]

theorem isUtf8_ascii {s : Bytes} (h : ∀ b ∈ s, b ≤ 0x7F) : isUtf8 s = true := by
  rw [isUtf8_iff]
  induction s with
  | nil => rfl
  | cons b s ih =>
    rw [decodeAll,decode_ascii (h b (by simp)),Option.bind_some]
    exact ih fun c hc => h c (by simp [hc])

def Continuing (q : Owed) : Prop := ∀ r ∈ q, 0x80 ≤ r.1

theorem follow_continuing {b : UInt8} {q : Owed} (h : follow b = some q) : Continuing q := by
  unfold follow at h
  split_ifs at h <;> simp only [Option.some.injEq] at h <;> subst q <;> intro r hr <;>
    simp only [List.mem_cons,List.not_mem_nil,or_false] at hr <;>
    rcases hr with rfl | rfl | rfl <;> decide

theorem decode_continuing {q q' : Owed} {b : UInt8} (hq : Continuing q)
    (h : decode q b = some q') : Continuing q' := by
  cases q with
  | nil => exact follow_continuing h
  | cons r rs =>
    simp only [decode] at h
    split at h
    · cases h
      exact fun r hr => hq r (by simp [hr])
    · cases h

/-- An ASCII byte inside a character is refused. -/
theorem decode_ascii_owed {q : Owed} {b : UInt8} (hq : Continuing q) (hne : q ≠ [])
    (hb : b ≤ 0x7F) : decode q b = none := by
  cases q with
  | nil => exact absurd rfl hne
  | cons r rs =>
    have hr : 0x80 ≤ r.1 := hq r (by simp)
    have hlt : ¬ r.1 ≤ b := by grind
    simp [decode,hlt]

end Bytes
end Kivi
