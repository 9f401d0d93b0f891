import Kivi.Paxos.Messages
import Kivi.Core.LRURefinement

/-! Encoding followed by decoding: every message with well-formed strings is read back. -/
namespace Kivi

open Bytes (ofString isUtf8)

theorem mem_of_lookup_insertAll {κ ν : Type*} [DecidableEq κ] {k : κ} {v : ν} (es : List (κ × ν))
    (m : UnorderedMap κ ν)
    (h : (es.foldl (fun m e => m.insert e.1 e.2) m).lookup k = some v) :
    (k,v) ∈ es ∨ m.lookup k = some v := by
  induction es generalizing m with
  | nil => exact .inr h
  | cons e es ih =>
    have hrest := ih (m.insert e.1 e.2) h
    rcases hrest with hmem | hm
    · exact .inl (by simp [hmem])
    · by_cases hk : k = e.1
      · subst k
        rw [AList.lookup_insert,Option.some.injEq] at hm
        subst v
        exact .inl (by simp)
      · rw [AList.lookup_insert_ne hk] at hm
        exact .inr hm

/-- With every key once, inserting the pairs into the empty map yields exactly them. -/
theorem lookup_insertAll {κ ν : Type*} [DecidableEq κ] {k : κ} {v : ν} (es : List (κ × ν))
    (m : UnorderedMap κ ν) (hn : (es.map Prod.fst).Nodup) :
    (es.foldl (fun m e => m.insert e.1 e.2) m).lookup k = some v ↔
      (k,v) ∈ es ∨ k ∉ es.map Prod.fst ∧ m.lookup k = some v := by
  induction es generalizing m with
  | nil => simp
  | cons e es ih =>
    rw [List.map_cons,List.nodup_cons] at hn
    have hrest := ih (m.insert e.1 e.2) hn.2
    by_cases hk : k = e.1
    · subst k
      have hv : (e.1,v) = e ↔ e.2 = v := by
        rw [Prod.ext_iff]
        simp [eq_comm]
      have hnot : (e.1,v) ∉ es := fun hm => hn.1 (List.mem_map.mpr ⟨_,hm,rfl⟩)
      simp only [List.foldl_cons,hrest,AList.lookup_insert,Option.some.injEq,List.mem_cons,hv,hn.1]
      simp [hnot]
    · have hne : ¬ (k,v) = e := fun he => hk (by rw [← he])
      simp only [List.foldl_cons,hrest,AList.lookup_insert_ne hk,List.mem_cons,hne,List.map_cons,hk]
      simp

theorem insertAll_entries {κ ν : Type*} [DecidableEq κ] {m : UnorderedMap κ ν}
    {es : List (κ × ν)} (hn : (es.map Prod.fst).Nodup)
    (hmem : ∀ k v, (k,v) ∈ es ↔ m.lookup k = some v) :
    (es.foldl (fun m e => m.insert e.1 e.2) (∅ : UnorderedMap κ ν)).toFinmap = m.toFinmap := by
  apply Finmap.ext_lookup
  intro k
  rw [Finmap.lookup_toFinmap,Finmap.lookup_toFinmap]
  apply Option.ext
  intro v
  have h := lookup_insertAll (k:=k) (v:=v) es ∅ hn
  simp only [AList.lookup_empty,reduceCtorEq,and_false,or_false] at h
  exact h.trans (hmem k v)

theorem mapM_ok {ε α β : Type*} {f : α → Except ε β} {g : α → β} {xs : List α}
    (h : ∀ x ∈ xs, f x = .ok (g x)) : xs.mapM f = .ok (xs.map g) := by
  induction xs with
  | nil => rfl
  | cons x xs ih =>
    have hx := h x (by simp)
    have hxs := ih fun y hy => h y (by simp [hy])
    simp only [List.mapM_cons,hx,hxs,except_bind_ok,except_pure,List.map_cons]

namespace Json

@[simp] theorem getInt64_ofInt64 (n : Int64) : (ofInt64 n).getInt64 = .ok n := by
  simp [ofInt64,getInt64]

@[simp] theorem getInt32_ofInt32 (n : Int32) : (ofInt32 n).getInt32 = .ok n := by
  simp [ofInt32,getInt32]

@[simp] theorem getString_string (s : Bytes) : (string s).getString = .ok s := rfl

def text (j : Json) : Bytes := j.getString.toOption.getD []

@[simp] theorem text_string (s : Bytes) : (string s).text = s := rfl

@[simp] theorem getStringArray_ofStrings (xs : List Bytes) :
    (ofStrings xs).getStringArray = .ok xs := by
  have hm : (xs.map string).mapM getString = .ok ((xs.map string).map text) := by
    apply mapM_ok
    intro x hx
    obtain ⟨s,_,rfl⟩ := List.mem_map.mp hx
    rfl
  rw [ofStrings,getStringArray,hm,List.map_map]
  simp [Function.comp_def]

theorem field?_eq_some {k : Bytes} {v : Json} {fs : Fields} (hn : (fs.map Prod.fst).Nodup) :
    field? k fs = some v ↔ (k,v) ∈ fs := by
  induction fs with
  | nil => simp [field?]
  | cons f fs ih =>
    rw [List.map_cons,List.nodup_cons] at hn
    by_cases hk : k = f.1
    · subst k
      have hnot : (f.1,v) ∉ fs := fun hm => hn.1 (List.mem_map.mpr ⟨_,hm,rfl⟩)
      have hv : (f.1,v) = f ↔ f.2 = v := by
        rw [Prod.ext_iff]
        simp [eq_comm]
      simp [field?,hv,hnot]
    · have hne : ¬ (k,v) = f := fun he => hk (by rw [← he])
      simp [field?,hk,hne,ih hn.2]

theorem field?_assign {k : Bytes} {gs : Fields} (hn : (gs.map Prod.fst).Nodup) (fs : Fields) :
    field? k (assign fs gs) = (field? k gs).or (field? k fs) := by
  induction gs generalizing fs with
  | nil => rfl
  | cons g gs ih =>
    rw [List.map_cons,List.nodup_cons] at hn
    have hrest := ih hn.2 (setField g.1 g.2 fs)
    have hcons : assign fs (g::gs) = assign (setField g.1 g.2 fs) gs := rfl
    rw [hcons,hrest,field?_setField]
    by_cases hk : k = g.1
    · subst k
      have hnone : field? g.1 gs = none := by
        apply Option.eq_none_iff_forall_ne_some.mpr
        intro v hv
        exact hn.1 (List.mem_map.mpr ⟨_,(field?_eq_some hn.2).mp hv,rfl⟩)
      simp [field?,hnone]
    · simp [field?,hk]

theorem nodup_of_pairwise {fs : Fields} (h : fs.Pairwise fun f g => f.1 < g.1) :
    (fs.map Prod.fst).Nodup := by
  apply List.pairwise_map.mpr
  refine h.imp fun {f g} hlt he => ?_
  rw [he] at hlt
  exact List.lt_irrefl _ hlt

theorem mem_assign_iff {k : Bytes} {v : Json} {gs : Fields} (hn : (gs.map Prod.fst).Nodup) :
    (k,v) ∈ assign [] gs ↔ (k,v) ∈ gs := by
  have hs := nodup_of_pairwise (assign_pairwise gs .nil)
  rw [← field?_eq_some hs,field?_assign hn,← field?_eq_some hn]
  simp [field?]

theorem clean_ofFields_iff {gs : Fields} (hn : (gs.map Prod.fst).Nodup) :
    clean (ofFields gs) = true ↔ ∀ g ∈ gs, isUtf8 g.1 = true ∧ clean g.2 = true := by
  rw [ofFields,clean,cleanFields_iff]
  exact forall_congr' fun g => imp_congr_left (mem_assign_iff hn)

theorem getStringMap_ofStringMap (m : UnorderedMap Bytes Bytes) :
    ∃ es, (ofStringMap m).getStringMap = .ok es ∧ (toStringMap es).toFinmap = m.toFinmap := by
  let gs : Fields := m.entries.map fun e => (e.1,.string e.2)
  have hgn : (gs.map Prod.fst).Nodup := by
    have hkeys : gs.map Prod.fst = m.keys := by
      simp [gs,AList.keys,List.keys,Function.comp_def]
    rw [hkeys]
    exact m.keys_nodup
  have hmem : ∀ k v, (k,v) ∈ assign [] gs ↔ (k,v) ∈ gs := fun k v => mem_assign_iff hgn
  have hstr : ∀ f ∈ assign [] gs, f.2 = .string f.2.text := by
    intro f hf
    obtain ⟨e,_,he⟩ := List.mem_map.mp ((hmem f.1 f.2).mp hf)
    have hf₂ : .string e.2 = f.2 := congrArg Prod.snd he
    rw [← hf₂,text_string]
  let es := (assign [] gs).map fun f => (f.1,f.2.text)
  have hread : (ofStringMap m).getStringMap = .ok es := by
    have hfs : (assign [] gs).mapM (fun f => do return (f.1,← f.2.getString)) =
        (.ok es : Except Error _) := by
      apply mapM_ok
      intro f hf
      rw [hstr f hf]
      rfl
    exact hfs
  have hen : (es.map Prod.fst).Nodup := by
    have hkeys : es.map Prod.fst = (assign [] gs).map Prod.fst := by
      simp [es,Function.comp_def]
    rw [hkeys]
    exact nodup_of_pairwise (assign_pairwise gs .nil)
  refine ⟨es,hread,insertAll_entries hen fun k v => ?_⟩
  have hes : (k,v) ∈ es ↔ (k,.string v) ∈ gs := by
    rw [← hmem]
    constructor
    · intro h
      obtain ⟨f,hf,he⟩ := List.mem_map.mp h
      have hs := hstr f hf
      simp only [Prod.mk.injEq] at he
      obtain ⟨rfl,rfl⟩ := he
      rwa [← hs]
    · intro h
      exact List.mem_map.mpr ⟨_,h,rfl⟩
  rw [hes,← Option.mem_def,AList.mem_lookup_iff]
  constructor
  · intro h
    obtain ⟨e,he,heq⟩ := List.mem_map.mp h
    simp only [Prod.mk.injEq,Json.string.injEq] at heq
    obtain ⟨rfl,rfl⟩ := heq
    exact he
  · intro h
    exact List.mem_map.mpr ⟨_,h,rfl⟩

theorem atKey_ofFields {k : Bytes} {v : Json} {gs : Fields} (hn : (gs.map Prod.fst).Nodup)
    (hm : (k,v) ∈ gs) : (ofFields gs).atKey k = .ok v := by
  have hs := nodup_of_pairwise (assign_pairwise gs .nil)
  have hf : field? k (assign [] gs) = some v :=
    (field?_eq_some hs).mpr ((mem_assign_iff hn).mpr hm)
  simp only [ofFields,atKey,hf]

/-- A document whose text a parser reads back. -/
structure Writable (j : Json) : Prop where
  ordered : Ordered j
  clean : clean j = true
  sized : sized j = true

namespace Writable

theorem null : Writable .null := ⟨by simp [Ordered],rfl,rfl⟩

theorem boolean (b : Bool) : Writable (.boolean b) := ⟨by simp [Ordered],rfl,rfl⟩

theorem ofInt64 (n : Int64) : Writable (ofInt64 n) := by
  have hle := Int64.le_toInt n
  have hlt := Int64.toInt_lt n
  exact ⟨by simp [Json.ofInt64,Ordered],rfl,decide_eq_true ⟨hle,by omega⟩⟩

theorem ofInt32 (n : Int32) : Writable (ofInt32 n) := by
  have hle := Int32.le_toInt n
  have hlt := Int32.toInt_lt n
  exact ⟨by simp [Json.ofInt32,Ordered],rfl,decide_eq_true ⟨by omega,by omega⟩⟩

theorem string {s : Bytes} (h : isUtf8 s = true) : Writable (.string s) :=
  ⟨by simp [Ordered],h,rfl⟩

theorem array {xs : List Json} (h : ∀ x ∈ xs, Writable x) : Writable (.array xs) where
  ordered := by
    rw [Ordered,orderedElems_iff]
    exact fun x hx => (h x hx).ordered
  clean := by
    rw [Json.clean,cleanElems_iff]
    exact fun x hx => (h x hx).clean
  sized := by
    rw [Json.sized,sizedElems_iff]
    exact fun x hx => (h x hx).sized

theorem ofFields {gs : Fields} (hk : ∀ k ∈ gs.map Prod.fst, isUtf8 k = true)
    (hv : ∀ v ∈ gs.map Prod.snd, Writable v) : Writable (ofFields gs) := by
  have hw : ∀ g ∈ gs, Writable g.2 := fun g hg => hv g.2 (List.mem_map.mpr ⟨g,hg,rfl⟩)
  exact ⟨ordered_ofFields fun g hg => (hw g hg).ordered,clean_ofFields fun g hg =>
    ⟨hk g.1 (List.mem_map.mpr ⟨g,hg,rfl⟩),(hw g hg).clean⟩,
    sized_ofFields fun g hg => (hw g hg).sized⟩

theorem ofStrings {xs : List Bytes} (h : ∀ x ∈ xs, isUtf8 x = true) : Writable (ofStrings xs) := by
  apply array
  intro x hx
  obtain ⟨s,hs,rfl⟩ := List.mem_map.mp hx
  exact string (h s hs)

theorem ofStringMap {m : UnorderedMap Bytes Bytes}
    (h : ∀ k v, m.lookup k = some v → isUtf8 k = true ∧ isUtf8 v = true) :
    Writable (ofStringMap m) := by
  have hkv : ∀ e ∈ m.entries, isUtf8 e.1 = true ∧ isUtf8 e.2 = true := fun e he =>
    h e.1 e.2 (AList.mem_lookup_iff.mpr he)
  apply ofFields
  · intro k hk
    rw [List.map_map] at hk
    obtain ⟨e,he,rfl⟩ := List.mem_map.mp hk
    exact (hkv e he).1
  · intro v hv
    rw [List.map_map] at hv
    obtain ⟨e,he,rfl⟩ := List.mem_map.mp hv
    exact string (hkv e he).2

variable {j : Json}

theorem dump (h : Writable j) : j.dump = .ok j.write := dump_clean h.clean

theorem parse (h : Writable j) (parser : Parser) : parser.parse j.write = .ok j :=
  parser.parse_write j h.ordered h.clean h.sized

end Writable
end Json

open Json (Fields Writable ofFields ofInt64 ofInt32 ofStrings ofStringMap toStringMap
  atKey_ofFields)

theorem atKey_proposalFields (type : MessageType) (batch : Bytes × Json)
    (hb : batch.1 = ofString "keys" ∨ batch.1 = ofString "kv_batch")
    (proposerId proposalNumber timestamp : Int64) :
    let j := ofFields (proposalFields type batch proposerId proposalNumber timestamp)
    j.atKey (ofString "type") = .ok (ofInt32 type.toInt) ∧
      j.atKey batch.1 = .ok batch.2 ∧
      j.atKey (ofString "proposer_id") = .ok (ofInt64 proposerId) ∧
      j.atKey (ofString "proposal_number") = .ok (ofInt64 proposalNumber) ∧
      j.atKey (ofString "timestamp") = .ok (ofInt64 timestamp) := by
  have hn : ((proposalFields type batch proposerId proposalNumber timestamp).map
      Prod.fst).Nodup := by
    simp only [proposalFields,List.map_cons,List.map_nil]
    rcases hb with hb | hb <;> rw [hb] <;> decide
  refine ⟨?_,?_,?_,?_,?_⟩ <;> apply atKey_ofFields hn <;> simp [proposalFields]

theorem writable_proposalFields (type : MessageType) (batch : Bytes × Json)
    (hb : batch.1 = ofString "keys" ∨ batch.1 = ofString "kv_batch") (hw : Writable batch.2)
    (proposerId proposalNumber timestamp : Int64) :
    Writable (ofFields (proposalFields type batch proposerId proposalNumber timestamp)) := by
  apply Writable.ofFields
  · simp only [proposalFields,List.map_cons,List.map_nil]
    rcases hb with hb | hb <;> rw [hb] <;> decide
  · simp [proposalFields,hw,Writable.ofInt32,Writable.ofInt64]

theorem PrepareMessage.ofJson_toJson (m : PrepareMessage) : ofJson m.toJson = .ok m := by
  obtain ⟨_,hk,hi,hp,ht⟩ := atKey_proposalFields .prepare (ofString "keys",ofStrings m.keys)
    (.inl rfl) m.proposerId m.proposalNumber m.timestamp
  simp only [ofJson,toJson,hk,hi,hp,ht,except_bind_ok,except_pure,Json.getInt64_ofInt64,
    Json.getStringArray_ofStrings]

theorem PromiseMessage.ofJson_toJson (m : PromiseMessage) : ofJson m.toJson = .ok m := by
  obtain ⟨_,hk,hi,hp,ht⟩ := atKey_proposalFields .promise (ofString "keys",ofStrings m.keys)
    (.inl rfl) m.proposerId m.proposalNumber m.timestamp
  simp only [ofJson,toJson,hk,hi,hp,ht,except_bind_ok,except_pure,Json.getInt64_ofInt64,
    Json.getStringArray_ofStrings]

theorem AcceptMessage.ofJson_toJson (m : AcceptMessage) :
    ∃ kvBatch, ofJson m.toJson = .ok { m with kvBatch } ∧
      kvBatch.toFinmap = m.kvBatch.toFinmap := by
  obtain ⟨es,hes,hmap⟩ := Json.getStringMap_ofStringMap m.kvBatch
  obtain ⟨_,hk,hi,hp,ht⟩ := atKey_proposalFields .accept
    (ofString "kv_batch",ofStringMap m.kvBatch) (.inr rfl) m.proposerId m.proposalNumber
    m.timestamp
  refine ⟨toStringMap es,?_,hmap⟩
  simp only [ofJson,toJson,hk,hi,hp,ht,hes,except_bind_ok,except_pure,Json.getInt64_ofInt64]

theorem AcceptedMessage.ofJson_toJson (m : AcceptedMessage) :
    ∃ kvBatch, ofJson m.toJson = .ok { m with kvBatch } ∧
      kvBatch.toFinmap = m.kvBatch.toFinmap := by
  obtain ⟨es,hes,hmap⟩ := Json.getStringMap_ofStringMap m.kvBatch
  obtain ⟨_,hk,hi,hp,ht⟩ := atKey_proposalFields .accepted
    (ofString "kv_batch",ofStringMap m.kvBatch) (.inr rfl) m.proposerId m.proposalNumber
    m.timestamp
  refine ⟨toStringMap es,?_,hmap⟩
  simp only [ofJson,toJson,hk,hi,hp,ht,hes,except_bind_ok,except_pure,Json.getInt64_ofInt64]

theorem HeartBeatMessage.ofJson_toJson (m : HeartBeatMessage) : ofJson m.toJson = .ok m := by
  simp +decide [ofJson,toJson,ofFields,Json.assign,Json.atKey]

theorem LocalSyncRequestMessage.ofJson_toJson (m : LocalSyncRequestMessage) :
    ofJson m.toJson = .ok m := by
  simp +decide [ofJson,toJson,ofFields,Json.assign,Json.atKey]

theorem LocalSyncPushMessage.ofJson_toJson (m : LocalSyncPushMessage) :
    ofJson m.toJson = .ok m := by
  simp +decide [ofJson,toJson,ofFields,Json.assign,Json.atKey]

theorem LocalSyncSelfPromotionMessage.ofJson_toJson (m : LocalSyncSelfPromotionMessage) :
    ofJson m.toJson = .ok m := by
  simp +decide [ofJson,toJson,ofFields,Json.assign,Json.atKey]

namespace LocalSyncPayload

/-- Every key and every value of the payload is well-formed. -/
def Clean (p : LocalSyncPayload) : Prop :=
  ∀ u ∈ p.updates, isUtf8 u.1 = true ∧ isUtf8 u.2.1 = true

theorem itemOfJson_itemToJson (u : Bytes × Bytes × Int64) : itemOfJson (itemToJson u) = .ok u := by
  simp +decide [itemOfJson,itemToJson,ofFields,Json.assign,Json.atKey]

theorem writable_toJson {p : LocalSyncPayload} (h : p.Clean) : Writable p.toJson := by
  have hitem : ∀ u ∈ p.updates, Writable (itemToJson u) := by
    intro u hu
    have hs := h u hu
    apply Writable.ofFields
    · simp only [List.map_cons,List.map_nil]
      decide
    · simp [Writable.string hs.1,Writable.string hs.2,Writable.ofInt64]
  have harray : Writable (.array (p.updates.map itemToJson)) := by
    apply Writable.array
    intro x hx
    obtain ⟨u,hu,rfl⟩ := List.mem_map.mp hx
    exact hitem u hu
  unfold toJson
  split
  · exact Writable.null
  · exact harray

theorem elements_toJson (p : LocalSyncPayload) : p.toJson.elements = p.updates.map itemToJson := by
  obtain ⟨us⟩ := p
  cases us <;> rfl

/-- A payload comes back in order; the empty one travels as null. -/
theorem load_dump (parser : Json.Parser) {p : LocalSyncPayload} (h : p.Clean) :
    ∃ s, p.dump = .ok s ∧ isUtf8 s = true ∧ load parser s = .ok p := by
  have hw := writable_toJson h
  have hitems : (p.updates.map itemToJson).mapM itemOfJson = .ok p.updates := by
    have hm : p.updates.mapM (itemOfJson ∘ itemToJson) = .ok (p.updates.map id) :=
      mapM_ok fun u _ => itemOfJson_itemToJson u
    rw [List.mapM_map,hm,List.map_id]
  refine ⟨p.toJson.write,hw.dump,Json.isUtf8_write _ hw.clean,?_⟩
  simp only [load,hw.parse parser,except_bind_ok,elements_toJson,hitems,except_pure]

theorem clean_loadFromMap {d : UnorderedMap Bytes Bytes} (nowMs : Int64)
    (h : ∀ k v, d.lookup k = some v → isUtf8 k = true ∧ isUtf8 v = true) :
    (loadFromMap nowMs d).Clean := by
  intro u hu
  obtain ⟨e,he,rfl⟩ := List.mem_map.mp hu
  exact h e.1 e.2 (AList.mem_lookup_iff.mpr he)

theorem getPayload_loadFromMap (nowMs : Int64) (d : UnorderedMap Bytes Bytes) :
    (loadFromMap nowMs d).getPayload.toFinmap = d.toFinmap := by
  let es : List (Bytes × Bytes) := d.entries.map fun e => (e.1,e.2)
  have hfold : (loadFromMap nowMs d).getPayload =
      es.foldl (fun m e => m.insert e.1 e.2) (∅ : UnorderedMap Bytes Bytes) := by
    simp only [getPayload,loadFromMap,es,List.foldl_map]
  have hn : (es.map Prod.fst).Nodup := by
    have hkeys : es.map Prod.fst = d.keys := by
      simp [es,AList.keys,List.keys,Function.comp_def]
    rw [hkeys]
    exact d.keys_nodup
  rw [hfold]
  apply insertAll_entries hn
  intro k v
  rw [← Option.mem_def,AList.mem_lookup_iff]
  constructor
  · intro h
    obtain ⟨e,he,heq⟩ := List.mem_map.mp h
    simp only [Prod.mk.injEq] at heq
    obtain ⟨rfl,rfl⟩ := heq
    exact he
  · intro h
    exact List.mem_map.mpr ⟨_,h,rfl⟩

end LocalSyncPayload

theorem LocalSyncResponseMessage.ofJson_toJson (parser : Json.Parser)
    {m : LocalSyncResponseMessage} (h : m.payload.Clean) {j : Json} (hj : m.toJson = .ok j) :
    ofJson parser j = .ok m := by
  obtain ⟨s,hs,_,hload⟩ := LocalSyncPayload.load_dump parser h
  simp only [toJson,hs,except_bind_ok,except_pure,Except.ok.injEq] at hj
  subst j
  simp +decide [ofJson,ofFields,Json.assign,Json.atKey,hload]

namespace Message

/-- Every string of the message is well-formed UTF-8. -/
def Clean : Message → Prop
  | .prepare m => ∀ k ∈ m.keys, isUtf8 k = true
  | .promise m => ∀ k ∈ m.keys, isUtf8 k = true
  | .accept m => ∀ k v, m.kvBatch.lookup k = some v → isUtf8 k = true ∧ isUtf8 v = true
  | .accepted m => ∀ k v, m.kvBatch.lookup k = some v → isUtf8 k = true ∧ isUtf8 v = true
  | .heartBeat m => isUtf8 m.nodeIp = true
  | .localSyncResponse m => m.payload.Clean
  | .localSyncPush m => isUtf8 m.key = true ∧ isUtf8 m.value = true
  | .localSyncRequest _ => True
  | .localSyncSelfPromotion _ => True

/-- Messages of one kind with equal fields; batches are equal as maps. -/
def Same : Message → Message → Prop
  | .accept m, .accept m' => m.proposerId = m'.proposerId ∧
      m.proposalNumber = m'.proposalNumber ∧ m.kvBatch.toFinmap = m'.kvBatch.toFinmap ∧
      m.timestamp = m'.timestamp
  | .accepted m, .accepted m' => m.proposerId = m'.proposerId ∧
      m.proposalNumber = m'.proposalNumber ∧ m.kvBatch.toFinmap = m'.kvBatch.toFinmap ∧
      m.timestamp = m'.timestamp
  | m, m' => m = m'

theorem Same.getMessageType {m m' : Message} (h : m.Same m') :
    m'.getMessageType = m.getMessageType := by
  cases m <;> cases m' <;> first | rfl | exact absurd h (by simp [Same])

theorem writable_tagged {gs : Fields} {tag : Json}
    (hk : (∀ k ∈ gs.map Prod.fst, isUtf8 k = true) ∧ (gs.map Prod.fst).Nodup)
    (hv : ∀ v ∈ gs.map Prod.snd, Writable v) (ht : (ofString "type",tag) ∈ gs) :
    Writable (ofFields gs) ∧ (ofFields gs).atKey (ofString "type") = .ok tag :=
  ⟨Writable.ofFields hk.1 hv,atKey_ofFields hk.2 ht⟩

theorem toJson_writable {m : Message} (h : m.Clean) :
    ∃ j, m.toJson = .ok j ∧ Writable j ∧
      j.atKey (ofString "type") = .ok (ofInt32 m.getMessageType.toInt) := by
  cases m with
  | prepare m =>
    have hw := writable_proposalFields .prepare (ofString "keys",ofStrings m.keys)
      (.inl rfl) (Writable.ofStrings h) m.proposerId m.proposalNumber m.timestamp
    exact ⟨_,rfl,hw,(atKey_proposalFields _ _ (.inl rfl) _ _ _).1⟩
  | promise m =>
    have hw := writable_proposalFields .promise (ofString "keys",ofStrings m.keys)
      (.inl rfl) (Writable.ofStrings h) m.proposerId m.proposalNumber m.timestamp
    exact ⟨_,rfl,hw,(atKey_proposalFields _ _ (.inl rfl) _ _ _).1⟩
  | accept m =>
    have hw := writable_proposalFields .accept
      (ofString "kv_batch",ofStringMap m.kvBatch) (.inr rfl) (Writable.ofStringMap h)
      m.proposerId m.proposalNumber m.timestamp
    exact ⟨_,rfl,hw,(atKey_proposalFields _ _ (.inr rfl) _ _ _).1⟩
  | accepted m =>
    have hw := writable_proposalFields .accepted
      (ofString "kv_batch",ofStringMap m.kvBatch) (.inr rfl) (Writable.ofStringMap h)
      m.proposerId m.proposalNumber m.timestamp
    exact ⟨_,rfl,hw,(atKey_proposalFields _ _ (.inr rfl) _ _ _).1⟩
  | heartBeat m =>
    refine ⟨_,rfl,writable_tagged ?_ ?_ (by simp [getMessageType])⟩
    · simp only [List.map_cons,List.map_nil]
      decide
    · simp [Writable.ofInt32,Writable.ofInt64,Writable.string h]
  | localSyncRequest m =>
    refine ⟨_,rfl,writable_tagged ?_ ?_ (by simp [getMessageType])⟩
    · simp only [List.map_cons,List.map_nil]
      decide
    · simp [Writable.ofInt32,Writable.ofInt64]
  | localSyncResponse m =>
    obtain ⟨s,hs,hsu,_⟩ := LocalSyncPayload.load_dump .reference h
    simp only [toJson,LocalSyncResponseMessage.toJson,hs,except_bind_ok,except_pure]
    refine ⟨_,rfl,writable_tagged ?_ ?_ (by simp [getMessageType])⟩
    · simp only [List.map_cons,List.map_nil]
      decide
    · simp [Writable.ofInt32,Writable.ofInt64,Writable.string hsu]
  | localSyncPush m =>
    refine ⟨_,rfl,writable_tagged ?_ ?_ (by simp [getMessageType])⟩
    · simp only [List.map_cons,List.map_nil]
      decide
    · simp [Writable.ofInt32,Writable.ofInt64,Writable.string h.1,Writable.string h.2]
  | localSyncSelfPromotion m =>
    refine ⟨_,rfl,writable_tagged ?_ ?_ (by simp [getMessageType])⟩
    · simp only [List.map_cons,List.map_nil]
      decide
    · simp [Writable.ofInt32,Writable.ofInt64]

/-- The decoder selected by the tag of a message reads its document back. -/
theorem deserialize_toJson (parser : Json.Parser) {m : Message} (h : m.Clean) {j : Json}
    (hj : m.toJson = .ok j) :
    ∃ m', MessageFactory.deserialize parser m.getMessageType.toInt j = .ok m' ∧ m.Same m' := by
  cases m with
  | prepare m =>
    obtain rfl := Except.ok.inj hj
    exact ⟨.prepare m,by simp [MessageFactory.deserialize,getMessageType,MessageType.toInt,
      PrepareMessage.ofJson_toJson,Except.map,Except.mapError],rfl⟩
  | promise m =>
    obtain rfl := Except.ok.inj hj
    exact ⟨.promise m,by simp [MessageFactory.deserialize,getMessageType,MessageType.toInt,
      PromiseMessage.ofJson_toJson,Except.map,Except.mapError],rfl⟩
  | accept m =>
    obtain rfl := Except.ok.inj hj
    obtain ⟨kvBatch,hread,hmap⟩ := AcceptMessage.ofJson_toJson m
    exact ⟨.accept { m with kvBatch },by simp [MessageFactory.deserialize,getMessageType,
      MessageType.toInt,hread,Except.map,Except.mapError],rfl,rfl,hmap.symm,rfl⟩
  | accepted m =>
    obtain rfl := Except.ok.inj hj
    obtain ⟨kvBatch,hread,hmap⟩ := AcceptedMessage.ofJson_toJson m
    exact ⟨.accepted { m with kvBatch },by simp [MessageFactory.deserialize,getMessageType,
      MessageType.toInt,hread,Except.map,Except.mapError],rfl,rfl,hmap.symm,rfl⟩
  | heartBeat m =>
    obtain rfl := Except.ok.inj hj
    exact ⟨.heartBeat m,by simp [MessageFactory.deserialize,getMessageType,MessageType.toInt,
      HeartBeatMessage.ofJson_toJson,Except.map,Except.mapError],rfl⟩
  | localSyncRequest m =>
    obtain rfl := Except.ok.inj hj
    exact ⟨.localSyncRequest m,by simp [MessageFactory.deserialize,getMessageType,
      MessageType.toInt,LocalSyncRequestMessage.ofJson_toJson,Except.map,Except.mapError],rfl⟩
  | localSyncResponse m =>
    have hread := LocalSyncResponseMessage.ofJson_toJson parser h hj
    exact ⟨.localSyncResponse m,by simp [MessageFactory.deserialize,getMessageType,
      MessageType.toInt,hread,Except.map,Except.mapError],rfl⟩
  | localSyncPush m =>
    obtain rfl := Except.ok.inj hj
    exact ⟨.localSyncPush m,by simp [MessageFactory.deserialize,getMessageType,
      MessageType.toInt,LocalSyncPushMessage.ofJson_toJson,Except.map,Except.mapError],rfl⟩
  | localSyncSelfPromotion m =>
    obtain rfl := Except.ok.inj hj
    exact ⟨.localSyncSelfPromotion m,by simp [MessageFactory.deserialize,getMessageType,
      MessageType.toInt,LocalSyncSelfPromotionMessage.ofJson_toJson,Except.map,Except.mapError],rfl⟩

theorem fromJson_serialize (parser : Json.Parser) {m : Message} (h : m.Clean) :
    ∃ j m', m.serialize = .ok (Json.write j) ∧
      MessageFactory.fromJson parser (Json.write j) = .ok m' ∧ m.Same m' := by
  obtain ⟨j,hj,hw,htag⟩ := toJson_writable h
  obtain ⟨m',hm,hsame⟩ := deserialize_toJson parser h hj
  refine ⟨j,m',?_,?_,hsame⟩
  · simp only [serialize,hj,except_bind_ok,hw.dump]
  · simp only [MessageFactory.fromJson,hw.parse parser,htag,Except.mapError,except_bind_ok,
      Json.getInt32_ofInt32]
    exact hm

/-- Every message of the nine kinds comes back with all its fields, and the payload of a
snapshot with its updates in order and as the map it was made from. -/
theorem roundTrip (parser : Json.Parser) (m : Message) (h : m.Clean) :
    (∃ s m', m.serialize = .ok s ∧ MessageFactory.fromJson parser s = .ok m' ∧
      m'.getMessageType = m.getMessageType ∧ m.Same m') ∧
    (∀ p : LocalSyncPayload, p.Clean →
      ∃ s, p.dump = .ok s ∧ LocalSyncPayload.load parser s = .ok p) ∧
    ∀ (nowMs : Int64) (d : UnorderedMap Bytes Bytes),
      (∀ k v, d.lookup k = some v → isUtf8 k = true ∧ isUtf8 v = true) →
      ∃ s p, (LocalSyncPayload.loadFromMap nowMs d).dump = .ok s ∧
        LocalSyncPayload.load parser s = .ok p ∧ p.getPayload.toFinmap = d.toFinmap := by
  refine ⟨?_,?_,?_⟩
  · obtain ⟨j,m',hs,hm,hsame⟩ := fromJson_serialize parser h
    refine ⟨_,m',hs,hm,?_,hsame⟩
    exact hsame.getMessageType
  · intro p hp
    obtain ⟨s,hs,_,hl⟩ := LocalSyncPayload.load_dump parser hp
    exact ⟨s,hs,hl⟩
  · intro nowMs d hd
    obtain ⟨s,hs,_,hl⟩ := LocalSyncPayload.load_dump parser
      (LocalSyncPayload.clean_loadFromMap nowMs hd)
    exact ⟨s,_,hs,hl,LocalSyncPayload.getPayload_loadFromMap nowMs d⟩

theorem roundTrip_response :
    ∃ s m', (Message.localSyncResponse ⟨10000,10001,-1,7,⟨[([0x6B],[0x76],7)]⟩⟩).serialize = .ok s ∧
      MessageFactory.fromJson .reference s = .ok m' ∧
      m'.getMessageType = .localSyncResponse ∧
      (Message.localSyncResponse ⟨10000,10001,-1,7,⟨[([0x6B],[0x76],7)]⟩⟩).Same m' := by
  have hclean : LocalSyncPayload.Clean ⟨[([0x6B],[0x76],7)]⟩ := by
    intro u hu
    obtain rfl := List.mem_singleton.mp hu
    exact ⟨by decide,by decide⟩
  exact (roundTrip .reference (.localSyncResponse ⟨10000,10001,-1,7,⟨[([0x6B],[0x76],7)]⟩⟩)
    hclean).1

end Message
end Kivi
