import Kivi.Library.JsonPrefix
import Kivi.Paxos.Codec

/-! What the message factory accepts is well-formed: it can be sent on and is read as the same
message again. -/
namespace Kivi

open Bytes (ofString isUtf8)

theorem mem_of_mapM_ok {ε α β : Type} {f : α → Except ε β} {xs : List α} {ys : List β}
    (h : xs.mapM f = .ok ys) {y : β} (hy : y ∈ ys) : ∃ x ∈ xs, f x = .ok y := by
  induction xs generalizing ys with
  | nil =>
    obtain rfl := Except.ok.inj h
    simp at hy
  | cons x xs ih =>
    rw [List.mapM_cons] at h
    obtain ⟨z,hz,h⟩ := except_bind_eq_ok.mp h
    obtain ⟨zs,hzs,h⟩ := except_bind_eq_ok.mp h
    obtain rfl := Except.ok.inj h
    rcases List.mem_cons.mp hy with rfl | hy
    · exact ⟨x,List.mem_cons_self,hz⟩
    · exact List.exists_mem_cons_of_exists (ih hzs hy)

namespace Json

variable {j : Json}

theorem mem_of_field? {k : Bytes} {v : Json} {fs : Fields} (h : field? k fs = some v) :
    (k,v) ∈ fs := by
  induction fs with
  | nil => simp [field?] at h
  | cons f fs ih =>
    rw [field?] at h
    by_cases hk : k = f.1
    · rw [if_pos hk,Option.some.injEq] at h
      subst k v
      exact List.mem_cons_self
    · rw [if_neg hk] at h
      exact List.mem_cons_of_mem _ (ih h)

/-! ### Parts of a clean document -/

theorem clean_atKey {k : Bytes} {v : Json} (hj : clean j = true) (h : j.atKey k = .ok v) :
    clean v = true := by
  cases j with
  | object fs =>
    rw [clean,cleanFields_iff] at hj
    cases hf : field? k fs with
    | none => simp [atKey,hf] at h
    | some w =>
      obtain rfl : w = v := by simpa [atKey,hf] using h
      exact (hj _ (mem_of_field? hf)).2
  | _ => simp [atKey] at h

theorem utf8_getString {s : Bytes} (hj : clean j = true) (h : j.getString = .ok s) :
    isUtf8 s = true := by
  cases j with
  | string t =>
    obtain rfl := Except.ok.inj h
    exact hj
  | _ => simp [getString] at h

theorem utf8_getStringArray {xs : List Bytes} (hj : clean j = true)
    (h : j.getStringArray = .ok xs) : ∀ x ∈ xs, isUtf8 x = true := by
  cases j with
  | array js =>
    rw [clean,cleanElems_iff] at hj
    intro x hx
    obtain ⟨y,hy,hxy⟩ := mem_of_mapM_ok h hx
    exact utf8_getString (hj y hy) hxy
  | _ => simp [getStringArray] at h

theorem utf8_getStringMap {es : List (Bytes × Bytes)} (hj : clean j = true)
    (h : j.getStringMap = .ok es) {k v : Bytes} (hv : (toStringMap es).lookup k = some v) :
    isUtf8 k = true ∧ isUtf8 v = true := by
  have hmem : (k,v) ∈ es := (mem_of_lookup_insertAll es ∅ hv).resolve_right (by simp)
  cases j with
  | object fs =>
    rw [clean,cleanFields_iff] at hj
    obtain ⟨f,hf,he⟩ := mem_of_mapM_ok h hmem
    obtain ⟨w,hw,he⟩ := except_bind_eq_ok.mp he
    obtain ⟨rfl,rfl⟩ := Prod.mk.inj (Except.ok.inj he)
    exact ⟨(hj f hf).1,utf8_getString (hj f hf).2 hw⟩
  | _ => simp [getStringMap] at h

theorem clean_elements (hj : clean j = true) : ∀ x ∈ j.elements, clean x = true := by
  cases j with
  | array xs =>
    rw [clean,cleanElems_iff] at hj
    exact hj
  | object fs =>
    rw [clean,cleanFields_iff] at hj
    intro x hx
    obtain ⟨f,hf,rfl⟩ := List.mem_map.mp hx
    exact (hj f hf).2
  | null => simp [elements]
  | _ => simpa [elements] using hj

theorem clean_of_dump {s : Bytes} (h : j.dump = .ok s) : clean j = true := by
  unfold dump at h
  by_cases hj : clean j = true
  · exact hj
  · simp [hj] at h

end Json

open Json (clean_atKey utf8_getString utf8_getStringArray utf8_getStringMap)

/-! ### Decoders -/

section Decoders

variable {j : Json} (hj : j.clean = true)
include hj

theorem PrepareMessage.keys_clean {m : PrepareMessage} (h : ofJson j = .ok m) :
    ∀ k ∈ m.keys, isUtf8 k = true := by
  simp only [ofJson,except_bind_eq_ok] at h
  obtain ⟨_,_,_,_,_,_,_,_,keys,hkeys,_,hread,_,_,_,_,hm⟩ := h
  obtain rfl := Except.ok.inj hm
  exact utf8_getStringArray (clean_atKey hj hkeys) hread

theorem PromiseMessage.keys_clean {m : PromiseMessage} (h : ofJson j = .ok m) :
    ∀ k ∈ m.keys, isUtf8 k = true := by
  simp only [ofJson,except_bind_eq_ok] at h
  obtain ⟨_,_,_,_,_,_,_,_,keys,hkeys,_,hread,_,_,_,_,hm⟩ := h
  obtain rfl := Except.ok.inj hm
  exact utf8_getStringArray (clean_atKey hj hkeys) hread

theorem AcceptMessage.kvBatch_clean {m : AcceptMessage} (h : ofJson j = .ok m) {k v : Bytes}
    (hv : m.kvBatch.lookup k = some v) : isUtf8 k = true ∧ isUtf8 v = true := by
  simp only [ofJson,except_bind_eq_ok] at h
  obtain ⟨_,_,_,_,_,_,_,_,batch,hbatch,_,hread,_,_,_,_,hm⟩ := h
  obtain rfl := Except.ok.inj hm
  exact utf8_getStringMap (clean_atKey hj hbatch) hread hv

theorem AcceptedMessage.kvBatch_clean {m : AcceptedMessage} (h : ofJson j = .ok m) {k v : Bytes}
    (hv : m.kvBatch.lookup k = some v) : isUtf8 k = true ∧ isUtf8 v = true := by
  simp only [ofJson,except_bind_eq_ok] at h
  obtain ⟨_,_,_,_,_,_,_,_,batch,hbatch,_,hread,_,_,_,_,hm⟩ := h
  obtain rfl := Except.ok.inj hm
  exact utf8_getStringMap (clean_atKey hj hbatch) hread hv

theorem HeartBeatMessage.nodeIp_clean {m : HeartBeatMessage} (h : ofJson j = .ok m) :
    isUtf8 m.nodeIp = true := by
  simp only [ofJson,except_bind_eq_ok] at h
  obtain ⟨_,_,_,_,ip,hip,_,hread,_,_,_,_,_,_,_,_,_,_,_,_,hm⟩ := h
  obtain rfl := Except.ok.inj hm
  exact utf8_getString (clean_atKey hj hip) hread

theorem LocalSyncPushMessage.pair_clean {m : LocalSyncPushMessage} (h : ofJson j = .ok m) :
    isUtf8 m.key = true ∧ isUtf8 m.value = true := by
  simp only [ofJson,except_bind_eq_ok] at h
  obtain ⟨_,_,_,_,_,_,_,_,key,hkey,_,hk,value,hvalue,_,hv,hm⟩ := h
  obtain rfl := Except.ok.inj hm
  exact ⟨utf8_getString (clean_atKey hj hkey) hk,utf8_getString (clean_atKey hj hvalue) hv⟩

theorem LocalSyncPayload.item_clean {u : Bytes × Bytes × Int64} (h : itemOfJson j = .ok u) :
    isUtf8 u.1 = true ∧ isUtf8 u.2.1 = true := by
  simp only [itemOfJson,except_bind_eq_ok] at h
  obtain ⟨key,hkey,_,hk,value,hvalue,_,hv,_,_,_,_,hm⟩ := h
  obtain rfl := Except.ok.inj hm
  exact ⟨utf8_getString (clean_atKey hj hkey) hk,utf8_getString (clean_atKey hj hvalue) hv⟩

end Decoders

theorem LocalSyncPayload.clean_of_load (parser : Json.StrictParser) {s : Bytes}
    {p : LocalSyncPayload} (h : load parser.toParser s = .ok p) : p.Clean := by
  obtain ⟨j,hj,h⟩ := except_bind_eq_ok.mp h
  obtain ⟨us,hus,h⟩ := except_bind_eq_ok.mp h
  obtain rfl := Except.ok.inj h
  intro u hu
  obtain ⟨x,hx,hitem⟩ := mem_of_mapM_ok hus hu
  exact item_clean (Json.clean_elements (parser.parse_clean s j hj) x hx) hitem

theorem LocalSyncResponseMessage.payload_clean (parser : Json.StrictParser) {j : Json}
    {m : LocalSyncResponseMessage} (h : ofJson parser.toParser j = .ok m) : m.payload.Clean := by
  simp only [ofJson,except_bind_eq_ok] at h
  obtain ⟨_,_,_,_,payload,hload,h⟩ := h
  obtain ⟨_,_,_,_,_,_,_,_,_,_,_,_,_,_,_,_,hm⟩ := h
  obtain rfl := Except.ok.inj hm
  exact LocalSyncPayload.clean_of_load parser hload

/-! ### Encoders -/

namespace Json

theorem utf8_ofStrings {xs : List Bytes} (h : clean (ofStrings xs) = true) :
    ∀ x ∈ xs, isUtf8 x = true := by
  rw [ofStrings,clean,cleanElems_iff] at h
  exact fun x hx => h _ (List.mem_map_of_mem hx)

theorem utf8_ofStringMap {m : UnorderedMap Bytes Bytes} (h : clean (ofStringMap m) = true)
    {k v : Bytes} (hv : m.lookup k = some v) : isUtf8 k = true ∧ isUtf8 v = true := by
  have hkeys : (m.entries.map fun e => (e.1,Json.string e.2)).map Prod.fst = m.keys := by
    simp [AList.keys,List.keys,Function.comp_def]
  have hmem : ⟨k,v⟩ ∈ m.entries := AList.mem_lookup_iff.mp hv
  exact (clean_ofFields_iff (by rw [hkeys]; exact m.keys_nodup)).mp h _ (List.mem_map_of_mem hmem)

theorem clean_member {gs : Fields} (hn : (gs.map Prod.fst).Nodup) (h : clean (ofFields gs) = true)
    {k : Bytes} {v : Json} (hm : (k,v) ∈ gs) : clean v = true :=
  ((clean_ofFields_iff hn).mp h _ hm).2

end Json

open Json (ofFields)

theorem Json.clean_batch (type : MessageType) {name : Bytes} {batch : Json}
    (hname : name = ofString "keys" ∨ name = ofString "kv_batch") {a b c : Int64}
    (h : (ofFields (proposalFields type (name,batch) a b c)).clean = true) :
    batch.clean = true := by
  refine Json.clean_member ?_ h (k:=name) (by simp [proposalFields])
  rcases hname with rfl | rfl
  · simp only [proposalFields,List.map_cons,List.map_nil]
    decide
  · simp only [proposalFields,List.map_cons,List.map_nil]
    decide

theorem LocalSyncPayload.clean_of_dump {p : LocalSyncPayload} {s : Bytes} (h : p.dump = .ok s) :
    p.Clean := by
  have hj := Json.clean_of_dump h
  intro u hu
  have hitem : (itemToJson u).clean = true := by
    unfold toJson at hj
    cases hus : p.updates with
    | nil => simp [hus] at hu
    | cons v vs =>
      simp only [hus] at hj
      rw [Json.clean,Json.cleanElems_iff] at hj
      exact hj _ (List.mem_map_of_mem (hus ▸ hu))
  constructor
  · refine Json.clean_member ?_ hitem (k:=ofString "key") (v:=.string u.1) (by simp)
    simp only [List.map_cons,List.map_nil]
    decide
  · refine Json.clean_member ?_ hitem (k:=ofString "value") (v:=.string u.2.1) (by simp)
    simp only [List.map_cons,List.map_nil]
    decide

namespace Message

theorem clean_of_serialize {m : Message} {s : Bytes} (h : m.serialize = .ok s) : m.Clean := by
  obtain ⟨j,hj,hdump⟩ := except_bind_eq_ok.mp h
  have hclean := Json.clean_of_dump hdump
  cases m with
  | prepare m =>
    obtain rfl := Except.ok.inj hj
    exact Json.utf8_ofStrings (Json.clean_batch .prepare (.inl rfl) hclean)
  | promise m =>
    obtain rfl := Except.ok.inj hj
    exact Json.utf8_ofStrings (Json.clean_batch .promise (.inl rfl) hclean)
  | accept m =>
    obtain rfl := Except.ok.inj hj
    exact fun k v => Json.utf8_ofStringMap (Json.clean_batch .accept (.inr rfl) hclean)
  | accepted m =>
    obtain rfl := Except.ok.inj hj
    exact fun k v => Json.utf8_ofStringMap (Json.clean_batch .accepted (.inr rfl) hclean)
  | heartBeat m =>
    obtain rfl := Except.ok.inj hj
    refine Json.clean_member ?_ hclean (k:=ofString "node_ip") (v:=.string m.nodeIp) (by simp)
    simp only [List.map_cons,List.map_nil]
    decide
  | localSyncRequest m => trivial
  | localSyncResponse m =>
    obtain ⟨text,htext,_⟩ := except_bind_eq_ok.mp hj
    exact LocalSyncPayload.clean_of_dump htext
  | localSyncPush m =>
    obtain rfl := Except.ok.inj hj
    constructor
    · refine Json.clean_member ?_ hclean (k:=ofString "key") (v:=.string m.key) (by simp)
      simp only [List.map_cons,List.map_nil]
      decide
    · refine Json.clean_member ?_ hclean (k:=ofString "value") (v:=.string m.value) (by simp)
      simp only [List.map_cons,List.map_nil]
      decide
  | localSyncSelfPromotion m => trivial

/-- The messages with a text are the clean ones. -/
theorem clean_iff_serialize {m : Message} : m.Clean ↔ ∃ s, m.serialize = .ok s := by
  constructor
  · intro h
    obtain ⟨j,_,hs,_⟩ := fromJson_serialize .reference h
    exact ⟨_,hs⟩
  · rintro ⟨s,hs⟩
    exact clean_of_serialize hs

theorem clean_of_deserialize (parser : Json.StrictParser) {type : Int32} {j : Json} {m : Message}
    (hj : j.clean = true) (h : MessageFactory.deserialize parser.toParser type j = .ok m) :
    m.Clean := by
  have key : ∀ {α : Type} {x : Except Json.Error α} {f : α → Message},
      (x.map f).mapError DecodeError.json = .ok m → ∃ a, x = .ok a ∧ f a = m := by
    intro α x f hx
    cases x with
    | error e => simp [Except.map,Except.mapError] at hx
    | ok a => exact ⟨a,rfl,Except.ok.inj hx⟩
  unfold MessageFactory.deserialize at h
  split_ifs at h
  · obtain ⟨a,ha,rfl⟩ := key h
    exact a.nodeIp_clean hj ha
  · obtain ⟨a,ha,rfl⟩ := key h
    exact a.keys_clean hj ha
  · obtain ⟨a,ha,rfl⟩ := key h
    exact a.keys_clean hj ha
  · obtain ⟨a,ha,rfl⟩ := key h
    exact fun _ _ => a.kvBatch_clean hj ha
  · obtain ⟨a,ha,rfl⟩ := key h
    exact fun _ _ => a.kvBatch_clean hj ha
  · obtain ⟨a,ha,rfl⟩ := key h
    trivial
  · obtain ⟨a,ha,rfl⟩ := key h
    exact a.payload_clean parser ha
  · obtain ⟨a,ha,rfl⟩ := key h
    exact a.pair_clean hj ha
  · obtain ⟨a,ha,rfl⟩ := key h
    trivial

theorem clean_of_fromJson (parser : Json.StrictParser) {s : Bytes} {m : Message}
    (h : MessageFactory.fromJson parser.toParser s = .ok m) : m.Clean := by
  obtain ⟨j,hj,h⟩ := except_bind_eq_ok.mp h
  obtain ⟨type,_,h⟩ := except_bind_eq_ok.mp h
  cases hp : parser.parse s with
  | error e => simp [hp,Except.mapError] at hj
  | ok j' =>
    obtain rfl : j' = j := by simpa [hp,Except.mapError] using hj
    exact clean_of_deserialize parser (parser.parse_clean s j' hp) h

/-- Whatever text the factory accepts, the message it makes can be serialized again, and the
new text is accepted as the same message. -/
theorem sentOn_of_fromJson (parser : Json.StrictParser) {s : Bytes} {m : Message}
    (h : MessageFactory.fromJson parser.toParser s = .ok m) :
    ∃ s' m', m.serialize = .ok s' ∧ MessageFactory.fromJson parser.toParser s' = .ok m' ∧
      m.Same m' := by
  obtain ⟨j,m',hs,hm,hsame⟩ := fromJson_serialize parser.toParser (clean_of_fromJson parser h)
  exact ⟨_,m',hs,hm,hsame⟩

theorem sentOn_of_fromJson_push :
    ∃ s m, MessageFactory.fromJson Json.StrictParser.reference.toParser s = .ok m ∧
      (Message.localSyncPush ⟨10000,1,[0x6B],[0x76]⟩).Same m ∧
      ∃ s' m', m.serialize = .ok s' ∧
        MessageFactory.fromJson Json.StrictParser.reference.toParser s' = .ok m' ∧ m.Same m' := by
  have hclean : (Message.localSyncPush ⟨10000,1,[0x6B],[0x76]⟩).Clean := ⟨by decide,by decide⟩
  obtain ⟨_,m,_,hm,hsame⟩ := fromJson_serialize Json.StrictParser.reference.toParser hclean
  exact ⟨_,m,hm,hsame,sentOn_of_fromJson .reference hm⟩

end Message
end Kivi
