import Kivi.Library.JsonReader

/-! Addresses of the internet in dotted notation, each with one spelling, and the endpoints of
connections. -/
namespace Kivi
namespace DottedQuad

open Json (decimal isDigit)

structure Address where
  first : UInt8
  second : UInt8
  third : UInt8
  fourth : UInt8
  deriving DecidableEq

def digits (part : Bytes) : List ℕ := part.reverse.map fun b => (b-0x30).toNat

/-- A decimal number up to 255 without leading zeros. -/
def octet (part : Bytes) : Option UInt8 :=
  if part ≠ [] ∧ part.all isDigit ∧ (part.head? = some 0x30 → part = [0x30]) ∧
      Nat.ofDigits 10 (digits part) ≤ 255 then
    some (.ofNat (Nat.ofDigits 10 (digits part)))
  else none

/-- `inet_pton` for `AF_INET`; `none` is the result zero. -/
def inetPton (src : Bytes) : Option Address :=
  match src.splitOn 0x2E with
  | [a,b,c,d] => do return ⟨← octet a,← octet b,← octet c,← octet d⟩
  | _ => none

theorem digits_lt {part : Bytes} (h : part.all isDigit = true) : ∀ d ∈ digits part, d < 10 := by
  intro d hd
  obtain ⟨b,hb,rfl⟩ := List.mem_map.mp hd
  have hdigit : 0x30 ≤ b ∧ b ≤ 0x39 :=
    of_decide_eq_true (List.all_eq_true.mp h b (List.mem_reverse.mp hb))
  have hall : ∀ b : UInt8, 0x30 ≤ b ∧ b ≤ 0x39 → (b-0x30).toNat < 10 := by
    intro b hb
    have hle := UInt8.le_iff_toNat_le.mp hb.1
    have hge := UInt8.le_iff_toNat_le.mp hb.2
    rw [UInt8.toNat_sub_of_le _ _ hb.1]
    simp at hle hge ⊢
    omega
  exact hall b hdigit

theorem decimal_ofDigits {part : Bytes} (h : part.all isDigit = true) (hne : part ≠ [])
    (hlead : part.head? = some 0x30 → part = [0x30]) :
    decimal (Nat.ofDigits 10 (digits part)) = part := by
  by_cases hzero : part = [0x30]
  · subst part
    rfl
  obtain ⟨b,bs,rfl⟩ := List.exists_cons_of_ne_nil hne
  have hb : b ≠ 0x30 := fun hb => hzero (hlead (by rw [hb]; rfl))
  have hlast : ∀ hn : digits (b::bs) ≠ [], (digits (b::bs)).getLast hn ≠ 0 := by
    intro _ hlast
    have hzero : (b-0x30).toNat = 0 := by simpa [digits] using hlast
    have hsub : b-0x30 = 0 := UInt8.toNat_inj.mp hzero
    exact hb (by grind)
  have hdigits := Nat.digits_ofDigits 10 (by decide) _ (digits_lt h) fun hn => hlast hn
  have hvalue : Nat.ofDigits 10 (digits (b::bs)) ≠ 0 := by
    intro hvalue
    rw [hvalue,Nat.digits_zero] at hdigits
    simp [digits] at hdigits
  have hback : ∀ c : UInt8, 0x30+UInt8.ofNat (c-0x30).toNat = c := by
    intro c
    rw [UInt8.ofNat_toNat]
    grind
  rw [decimal,if_neg hvalue,hdigits,digits,← List.map_reverse,List.reverse_reverse,List.map_map]
  exact (List.map_congr_left fun c _ => hback c).trans (List.map_id _)

theorem octet_eq {part : Bytes} {n : UInt8} (h : octet part = some n) :
    part = decimal n.toNat := by
  obtain ⟨⟨hne,hall,hlead,hle⟩,hn⟩ := Option.ite_none_right_eq_some.mp h
  have hvalue : n.toNat = Nat.ofDigits 10 (digits part) := by
    rw [← Option.some.inj hn,UInt8.toNat_ofNat']
    exact Nat.mod_eq_of_lt (by omega)
  rw [hvalue,decimal_ofDigits hall hne hlead]

def print (a : Address) : Bytes :=
  [0x2E].intercalate [decimal a.first.toNat,decimal a.second.toNat,decimal a.third.toNat,
    decimal a.fourth.toNat]

theorem inetPton_eq {src : Bytes} {a : Address} (h : inetPton src = some a) : src = print a := by
  unfold inetPton at h
  split at h
  · rename_i w x y z hparts
    simp only [Option.bind_eq_bind,Option.bind_eq_some_iff] at h
    obtain ⟨a₁,hw,a₂,hx,a₃,hy,a₄,hz,ha⟩ := h
    obtain rfl := Option.some.inj ha
    have hjoin : [0x2E].intercalate (src.splitOn 0x2E) = src := List.intercalate_splitOn 0x2E
    rw [← hjoin,hparts,print,octet_eq hw,octet_eq hx,octet_eq hy,octet_eq hz]
  · cases h

theorem zero_notMem_print (a : Address) : 0 ∉ print a := by
  have hzero : ∀ n, (0 : UInt8) ∉ decimal n := fun n h =>
    absurd (Json.decimal_digit h).1 (by decide)
  simp [print,List.intercalate,List.intersperse,hzero]

end DottedQuad
end Kivi
