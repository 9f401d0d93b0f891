import Kivi.Server.Sessions

/-! What clients get back whatever they send: each read is answered by one line, and the line is
that of the reference cache. -/
namespace Kivi

open Bytes (ofString)
open LinkedList (Fault)
open RecencyCache (Assoc Op)
open Token (extract)

namespace Token

variable {α : Type*} {s : List α} {a : α}

theorem mem_of_mem_extract (sep : α → Bool)
    (h : a ∈ (extract sep s).1 ∨ a ∈ (extract sep s).2) : a ∈ s := by
  rw [← extract_parts sep s,List.append_assoc]
  exact List.mem_append_right _ (List.mem_append.mpr h)

end Token

namespace KiviTreeServer

variable {ι : Type} [DecidableEq ι] {capacity : ℕ} {l : Assoc Bytes Bytes} {k v c : Bytes}

/-- A pair that a read can put: the key is one word, the value a part of one line that starts
with no blank. -/
structure Tidy (k v : Bytes) : Prop where
  key : ∀ b ∈ k, isspace b = false ∧ b ≠ 0
  value : ∀ b ∈ v, b ≠ newline ∧ b ≠ 0
  head : ∀ b ∈ v.head?, isspace b = false

theorem tidy_of_parse (h : parse c = some (.put k v)) : Tidy k v := by
  unfold parse at h
  have hnul : ∀ b ∈ c.takeWhile (· != 0), b ≠ 0 := fun b hb => by
    simpa using List.mem_takeWhile_imp hb
  generalize c.takeWhile (· != 0) = iss at h hnul
  rcases hcmd : extract isspace iss with ⟨cmd,iss'⟩
  rcases hkey : extract isspace iss' with ⟨key,rest⟩
  simp only [hcmd,hkey] at h
  have hiss' : ∀ b ∈ iss', b ≠ 0 := fun b hb =>
    hnul b (Token.mem_of_mem_extract isspace (.inr (by rwa [hcmd])))
  obtain ⟨rfl,rfl⟩ : key = k ∧ getline rest = v := by
    split_ifs at h
    · cases h
    · exact Op.put.inj (Option.some.inj h)
    · cases h
  refine ⟨fun b hb => ⟨?_,?_⟩,fun b hb => ⟨?_,?_⟩,getline_head rest⟩
  · exact Token.sep_of_mem_extract (s:=iss') (by rwa [hkey])
  · exact hiss' b (Token.mem_of_mem_extract isspace (.inl (by rwa [hkey])))
  · rintro rfl
    exact newline_notMem_getline rest hb
  · have hrest : b ∈ rest := (List.dropWhile_sublist _).subset ((List.takeWhile_sublist _).subset hb)
    exact hiss' b (Token.mem_of_mem_extract isspace (.inr (by rwa [hkey])))

/-! ### The reference -/

def answer (read : Read) (l : Assoc Bytes Bytes) : Bytes :=
  match asksFor read with
  | some (.get k) => (l.lookup k).getD (ofString "NOT_FOUND")
  | some _ => ofString "OK"
  | none => ofString "ERR_UNKNOWN_COMMAND"

def cacheAfter (capacity : ℕ) (read : Read) (l : Assoc Bytes Bytes) : Assoc Bytes Bytes :=
  match asksFor read with
  | some op => (RecencyCache.step capacity op l).1
  | none => l

/-- The lines to one client when the reference cache handles the reads of all of them. -/
def answersTo (capacity : ℕ) (i : ι) : List (ι × Read) → Assoc Bytes Bytes → List Bytes
  | [], _ => []
  | e::es, l =>
    let later := answersTo capacity i es (cacheAfter capacity e.2 l)
    if e.1 = i then answer e.2 l :: later else later

theorem length_answersTo (capacity : ℕ) (i : ι) (events : List (ι × Read))
    (l : Assoc Bytes Bytes) :
    (answersTo capacity i events l).length = (events.map Prod.fst).count i := by
  induction events generalizing l with
  | nil => rfl
  | cons e es ih =>
    rw [answersTo,List.map_cons]
    by_cases hi : e.1 = i
    · rw [if_pos hi,List.length_cons,ih,hi,List.count_cons_self]
    · rw [if_neg hi,ih,List.count_cons_of_ne hi]

theorem pairs_of_parse {op : Op Bytes Bytes} (h : parse c = some op) (hp : ⟨k,v⟩ ∈ op.pairs) :
    op = .put k v := by
  obtain ⟨_,_,key,rest,_,rfl | rfl | rfl⟩ := parse_cases h
  · simp [Op.pairs] at hp
  · obtain ⟨rfl,hv⟩ := Sigma.mk.inj (List.mem_singleton.mp hp)
    rw [eq_of_heq hv]
  · simp [Op.pairs] at hp

theorem lookup_cacheAfter {read : Read} (h : (cacheAfter capacity read l).lookup k = some v) :
    asksFor read = some (.put k v) ∨ l.lookup k = some v := by
  unfold cacheAfter at h
  cases hasks : asksFor read with
  | none => exact .inr (by simpa only [hasks] using h)
  | some op =>
    simp only [hasks] at h
    rcases RecencyCache.lookup_step h with hp | hold
    · exact .inl (congrArg some (pairs_of_parse hasks hp))
    · exact .inr hold

theorem newline_notMem_answer (read : Read)
    (h : ∀ k v, l.lookup k = some v → Tidy k v) : newline ∉ answer read l := by
  have hfixed : newline ∉ ofString "NOT_FOUND" ∧ newline ∉ ofString "OK" ∧
      newline ∉ ofString "ERR_UNKNOWN_COMMAND" := by decide
  unfold answer
  split
  · rename_i k _
    cases hk : l.lookup k with
    | none => exact hfixed.1
    | some v => exact fun hb => ((h k v hk).value newline hb).1 rfl
  · exact hfixed.2.1
  · exact hfixed.2.2

/-! ### The server -/

omit [DecidableEq ι] in
theorem reply_eq_answer {read : Read} {op : Op Bytes Bytes} (h : asksFor read = some op)
    (l : Assoc Bytes Bytes) :
    reply (RecencyCache.step capacity op l).2 = answer read l ++ [newline] := by
  simp only [answer,h]
  obtain ⟨_,_,key,rest,_,rfl | rfl | rfl⟩ := parse_cases h
  · simp only [RecencyCache.step,RecencyCache.get_answer,reply]
    rfl
  · rfl
  · rfl

theorem serveRead_ok (hc : 1 ≤ capacity) {s : Serving ι}
    (hcap : s.store.engine.capacity = capacity) (hl : s.store.engine.Represents l) (i : ι)
    (read : Read) : ∃ store,
      serveRead i read s = .ok (s.replied i store (answer read l ++ [newline])) ∧
      store.engine.capacity = capacity ∧ store.engine.Represents (cacheAfter capacity read l) := by
  cases hasks : asksFor read with
  | none =>
    refine ⟨s.store,?_,hcap,?_⟩
    · simp only [serveRead,handleRead_eq,hasks,answer,except_bind_ok,except_pure]
      rfl
    · simpa only [cacheAfter,hasks] using hl
  | some op =>
    obtain ⟨engine,hstep,hcap',hl'⟩ := LRUStore.simulates hc op s.store.engine l ⟨hcap,hl⟩
    refine ⟨⟨engine⟩,?_,hcap',?_⟩
    · simp only [serveRead,handleRead_eq,hasks,perform,hstep,except_bind_ok,except_pure,
        reply_eq_answer hasks]
    · simpa only [cacheAfter,hasks] using hl'

/-- All reads, in whatever order those of the clients come. -/
theorem serve_ok (hc : 1 ≤ capacity) (events : List (ι × Read)) {s : Serving ι}
    (hcap : s.store.engine.capacity = capacity) (hl : s.store.engine.Represents l) :
    ∃ final l', serve events s = .ok final ∧ final.store.engine.Represents l' ∧
      (∀ k v, l'.lookup k = some v →
        (∃ e ∈ events, asksFor e.2 = some (.put k v)) ∨ l.lookup k = some v) ∧
      ∀ i, final.sent i = s.sent i ++ (answersTo capacity i events l).map (· ++ [newline]) := by
  induction events generalizing s l with
  | nil => exact ⟨s,l,rfl,hl,fun _ _ h => .inr h,fun i => (List.append_nil _).symm⟩
  | cons e es ih =>
    obtain ⟨store,hserve,hcap',hl'⟩ := serveRead_ok hc hcap hl e.1 e.2
    obtain ⟨final,l',hfinal,hrep,hasked,hsent⟩ := ih
      (s:=s.replied e.1 store (answer e.2 l ++ [newline])) hcap' hl'
    refine ⟨final,l',by simp only [serve,hserve,except_bind_ok,hfinal],hrep,fun k v hk => ?_,
      fun i => ?_⟩
    · rcases hasked k v hk with ⟨e',he',hput⟩ | hold
      · exact .inl ⟨e',List.mem_cons_of_mem _ he',hput⟩
      · rcases lookup_cacheAfter hold with hput | hold
        · exact .inl ⟨e,List.mem_cons_self,hput⟩
        · exact .inr hold
    · rw [hsent,answersTo]
      by_cases hi : e.1 = i
      · subst i
        rw [Serving.replied_self,if_pos rfl,List.append_assoc]
        rfl
      · rw [Serving.replied_ne (Ne.symm hi),if_neg hi]

theorem newline_notMem_answersTo (i : ι) (events : List (ι × Read))
    (h : ∀ k v, l.lookup k = some v → Tidy k v) :
    ∀ b ∈ answersTo capacity i events l, newline ∉ b := by
  induction events generalizing l with
  | nil => simp [answersTo]
  | cons e es ih =>
    have hlater := ih (l:=cacheAfter capacity e.2 l) fun k v hk => by
      rcases lookup_cacheAfter hk with hput | hold
      · exact tidy_of_parse hput
      · exact h k v hold
    rw [answersTo]
    by_cases hi : e.1 = i
    · rw [if_pos hi,List.forall_mem_cons]
      exact ⟨newline_notMem_answer e.2 h,hlater⟩
    · rwa [if_neg hi]

/-- Whatever bytes any number of clients send in whatever order, no read makes the server fault,
and the lines a client is sent are those of the reference cache, one for each of its reads: it
can take its stream apart at the newlines in no other way. -/
theorem replies_framed {ι : Type} [DecidableEq ι] {capacity : ℕ} (hc : 1 ≤ capacity)
    (events : List (ι × Read)) : ∃ final, serve events (.new capacity) = .ok final ∧
      ∀ i, (final.sent i).flatten = Framing.stream newline (answersTo capacity i events ∅) ∧
        (answersTo capacity i events ∅).length = (events.map Prod.fst).count i ∧
        ∀ lines, (∀ b ∈ lines, newline ∉ b) →
          Framing.stream newline lines = (final.sent i).flatten →
          lines = answersTo capacity i events ∅ := by
  obtain ⟨final,_,hfinal,_,_,hsent⟩ := serve_ok hc events (s:=.new capacity) rfl
    (LRUStore.represents_new capacity)
  have hstream : ∀ i, (final.sent i).flatten =
      Framing.stream newline (answersTo capacity i events ∅) := by
    intro i
    rw [hsent i]
    rfl
  refine ⟨final,hfinal,fun i => ⟨hstream i,length_answersTo capacity i events ∅,
    fun lines hlines heq => ?_⟩⟩
  refine Framing.stream_injective hlines ?_ (heq.trans (hstream i))
  exact newline_notMem_answersTo i events (by simp)

/-- Whatever is sent, every pair in the store was put by one read as it stands, its key one word
and its value a part of one line. -/
theorem stored_asked {ι : Type} [DecidableEq ι] {capacity : ℕ} (hc : 1 ≤ capacity)
    (events : List (ι × Read)) : ∃ final, serve events (.new capacity) = .ok final ∧
      ∀ k v, final.store.getKvBatch.lookup k = some v →
        Tidy k v ∧ ∃ e ∈ events, asksFor e.2 = some (.put k v) := by
  obtain ⟨final,l,hfinal,hrep,hasked,_⟩ := serve_ok hc events (s:=.new capacity) rfl
    (LRUStore.represents_new capacity)
  refine ⟨final,hfinal,fun k v hk => ?_⟩
  have hl : l.lookup k = some v := (hrep.lookup k).symm.trans hk
  obtain ⟨e,he,hput⟩ := (hasked k v hl).resolve_right (by simp)
  exact ⟨tidy_of_parse hput,e,he,hput⟩

/-! ### Two clients -/

def twoClients : List (Bool × Read) :=
  [(false,⟨ofString "PUT c gre",by decide,by decide⟩),(true,⟨ofString " ",by decide,by decide⟩),
    (false,⟨ofString "en\n",by decide,by decide⟩),(true,⟨ofString "GET c\n",by decide,by decide⟩)]

theorem replies_framed_two : ∃ final : Serving Bool, serve twoClients (.new 1) = .ok final ∧
    (final.sent true).flatten = ofString "ERR_UNKNOWN_COMMAND\ngre\n" := by
  obtain ⟨final,hfinal,hsent⟩ := replies_framed (le_refl 1) twoClients
  exact ⟨final,hfinal,(hsent true).1.trans (by decide +kernel)⟩

/-- The half line has put its half of the value. -/
theorem stored_asked_two : ∃ final : Serving Bool, serve twoClients (.new 1) = .ok final ∧
    final.store.getKvBatch.lookup (ofString "c") = some (ofString "gre") ∧
    Tidy (ofString "c") (ofString "gre") ∧
    ∃ e ∈ twoClients, asksFor e.2 = some (.put (ofString "c") (ofString "gre")) := by
  obtain ⟨final,hfinal,hstored⟩ := stored_asked (le_refl 1) twoClients
  have hlookup : final.store.getKvBatch.lookup (ofString "c") = some (ofString "gre") := by
    have hshown : (serve twoClients (.new 1)).toOption.map
        (fun final => final.store.getKvBatch.lookup (ofString "c")) =
          some (some (ofString "gre")) := by decide +kernel
    rw [hfinal] at hshown
    exact Option.some.inj hshown
  exact ⟨final,hfinal,hlookup,hstored _ _ hlookup⟩

end KiviTreeServer
end Kivi
