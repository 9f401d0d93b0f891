import Kivi.Paxos.Codec

/-! The two ends of a connection: the client writes the text of one message, the server
reads once into a fixed buffer and takes the buffer as a C string. -/
namespace Kivi

open Bytes (ofString isUtf8)

namespace RPCClient

/-- One call of `send`: its result and the bytes written, if a connection was made. What
`serialize` throws is not caught here. -/
def send (connected : Bool) (msg : Message) : Except Json.Error (Bool × Option Bytes) :=
  if connected then do
    let data ← msg.serialize
    return (true,some data)
  else return (false,none)

end RPCClient

namespace RPCServer

inductive ReadFault
  | pastEnd
  deriving DecidableEq

def bufferSize : ℕ := 4096

/-- `char buffer[4096] = {0}` after a read of what the client wrote. -/
def readBuffer (written : Bytes) : Bytes :=
  let bytes := written.take bufferSize
  bytes ++ List.replicate (bufferSize-bytes.length) 0

/-- `std::string json_str(buffer)`: the bytes before the first NUL of the array. -/
def cString (buffer : Bytes) : Except ReadFault Bytes :=
  if 0 ∈ buffer then .ok (buffer.takeWhile fun b => decide (b ≠ 0)) else .error .pastEnd

structure Iteration where
  jsonStr : Bytes
  handled : List Message

/-- Decode the text and call the handler; a decoding error is logged and the loop goes on. -/
def iteration (parser : Json.Parser) (written : Bytes) : Except ReadFault Iteration := do
  let jsonStr ← cString (readBuffer written)
  match MessageFactory.fromJson parser jsonStr with
  | .ok msg => return ⟨jsonStr,[msg]⟩
  | .error _ => return ⟨jsonStr,[]⟩

theorem cString_of_lt {written : Bytes} (h0 : 0 ∉ written) (hlt : written.length < bufferSize) :
    cString (readBuffer written) = .ok written := by
  have ht : written.take bufferSize = written := List.take_of_length_le hlt.le
  obtain ⟨n,hn⟩ := Nat.exists_eq_succ_of_ne_zero (Nat.sub_ne_zero_of_lt hlt)
  have hb : readBuffer written = written ++ 0 :: List.replicate n 0 := by
    simp only [readBuffer,ht,hn,List.replicate_succ]
  have hall : ∀ b ∈ written, decide (b ≠ 0) = true := by
    intro b hb
    exact decide_eq_true fun he => h0 (he ▸ hb)
  rw [hb,cString,if_pos (by simp),List.takeWhile_append_of_pos hall]
  simp

/-- A longer text fills the buffer, and no NUL ends the string. -/
theorem cString_of_le {written : Bytes} (h0 : 0 ∉ written) (hle : bufferSize ≤ written.length) :
    cString (readBuffer written) = .error .pastEnd := by
  have ht : (written.take bufferSize).length = bufferSize := by
    rw [List.length_take]
    omega
  have hb : readBuffer written = written.take bufferSize := by
    simp only [readBuffer,ht,Nat.sub_self,List.replicate_zero,List.append_nil]
  have hnot : 0 ∉ written.take bufferSize := fun h => h0 (List.mem_of_mem_take h)
  rw [hb,cString,if_neg hnot]

/-- The server took the text as the client wrote it and passed the message on once. -/
def Delivers (parser : Json.Parser) (data : Bytes) (m : Message) : Prop :=
  ∃ it, iteration parser data = .ok it ∧ it.jsonStr = data ∧
    ∃ m', it.handled = [m'] ∧ m.Same m'

theorem delivers_iff (parser : Json.Parser) {m : Message} (h : m.Clean) {data : Bytes}
    (hd : m.serialize = .ok data) : Delivers parser data m ↔ data.length < bufferSize := by
  obtain ⟨j,m',hs,hm,hsame⟩ := Message.fromJson_serialize parser h
  have hj : Json.write j = data := Except.ok.inj (hs.symm.trans hd)
  subst data
  have h0 := Json.zero_notMem_write j
  constructor
  · rintro ⟨it,hit,_⟩
    by_contra hlt
    have hc := cString_of_le h0 (Nat.le_of_not_lt hlt)
    rw [iteration,hc] at hit
    exact absurd hit (by simp [bind,Except.bind])
  · intro hlt
    have hc := cString_of_lt h0 hlt
    exact ⟨⟨Json.write j,[m']⟩,by simp [iteration,hc,hm],rfl,m',rfl,hsame⟩

/-- Exactly the messages whose text leaves room in the buffer arrive. -/
theorem faithful_iff_length_lt (parser : Json.Parser) (m : Message) (h : m.Clean) :
    ∃ data, m.serialize = .ok data ∧ RPCClient.send true m = .ok (true,some data) ∧
      (Delivers parser data m ↔ data.length < 4096) := by
  obtain ⟨j,_,hs,_⟩ := Message.fromJson_serialize parser h
  have hsend : RPCClient.send true m = .ok (true,some (Json.write j)) := by
    simp [RPCClient.send,hs]
  exact ⟨_,hs,hsend,delivers_iff parser h hs⟩

theorem faithful_iff_length_lt_promotion :
    ∃ data, (Message.localSyncSelfPromotion ⟨10001,7⟩).serialize = .ok data ∧
      RPCClient.send true (.localSyncSelfPromotion ⟨10001,7⟩) = .ok (true,some data) ∧
      (Delivers .reference data (.localSyncSelfPromotion ⟨10001,7⟩) ↔ data.length < 4096) :=
  faithful_iff_length_lt .reference (.localSyncSelfPromotion ⟨10001,7⟩) trivial

end RPCServer

namespace Json

theorem length_le_quote (s : Bytes) : s.length ≤ (quote s).length := by
  have hone : ∀ b, 1 ≤ (escape b).length := fun b =>
    List.length_pos_of_ne_nil (escape_spec b).2.1
  have hbody : s.length ≤ (s.flatMap escape).length := by
    induction s with
    | nil => simp
    | cons b s ih =>
      have hb := hone b
      simp only [List.flatMap_cons,List.length_append,List.length_cons]
      omega
  simp only [quote,List.length_cons,List.length_append]
  omega

theorem length_le_writeFields {k : Bytes} {v : Json} {fs : Fields} (h : (k,v) ∈ fs) :
    (write v).length ≤ (writeFields fs).length := by
  induction fs with
  | nil => simp at h
  | cons f fs ih =>
    obtain ⟨k',v'⟩ := f
    simp only [writeFields,List.length_cons,List.length_append]
    rcases List.mem_cons.mp h with heq | hmem
    · obtain ⟨_,rfl⟩ := Prod.mk.inj heq
      omega
    · have hrest := ih hmem
      omega

theorem length_le_write_ofFields {k : Bytes} {v : Json} {gs : Fields}
    (hn : (gs.map Prod.fst).Nodup) (h : (k,v) ∈ gs) :
    (write v).length ≤ (write (ofFields gs)).length := by
  have hmem := (mem_assign_iff hn).mpr h
  unfold ofFields
  cases hfs : assign [] gs with
  | nil => simp [hfs] at hmem
  | cons f fs =>
    obtain ⟨k',v'⟩ := f
    have hle : (write v).length ≤ (writeFields ((k',v')::fs)).length :=
      length_le_writeFields (hfs ▸ hmem)
    simpa only [write,writeFields,List.length_cons,List.length_append] using hle

end Json

theorem LocalSyncPushMessage.length_value_le (m : LocalSyncPushMessage) :
    m.value.length ≤ (Json.write m.toJson).length := by
  have hw : (Json.write (.string m.value)).length ≤ (Json.write m.toJson).length := by
    apply Json.length_le_write_ofFields (k:=ofString "value")
    · simp only [List.map_cons,List.map_nil]
      decide
    · simp
  exact (Json.length_le_quote m.value).trans hw

/-- The push of a value that fills the buffer does not arrive. -/
theorem RPCServer.longPush_not_delivered :
    ¬ ∀ (parser : Json.Parser) (m : Message), m.Clean →
      ∃ data, m.serialize = .ok data ∧ Delivers parser data m := by
  intro h
  let push : LocalSyncPushMessage := ⟨10000,1,[0x6B],List.replicate 4096 0x61⟩
  have hvalue : isUtf8 push.value = true := by
    apply Bytes.isUtf8_ascii
    intro b hb
    rw [List.eq_of_mem_replicate hb]
    decide
  have hclean : (Message.localSyncPush push).Clean := ⟨by decide,hvalue⟩
  obtain ⟨data,hs,hd⟩ := h .reference (.localSyncPush push) hclean
  obtain ⟨j,hj,hw,_⟩ := Message.toJson_writable hclean
  have hdata : Json.write j = data := by
    have hser : (Message.localSyncPush push).serialize = .ok (Json.write j) := by
      simp only [Message.serialize,hj,except_bind_ok,hw.dump]
    exact Except.ok.inj (hser.symm.trans hs)
  have hlt := (delivers_iff .reference hclean hs).mp hd
  have hle := push.length_value_le
  obtain rfl := Except.ok.inj hj
  rw [hdata] at hle
  have h4096 : push.value.length = 4096 := List.length_replicate
  have hsize : bufferSize = 4096 := rfl
  omega

end Kivi
