import Kivi.Server.Chunking

/-! The sessions of all clients together. Their threads share one store; a request that arrives
in one read is handled without another one in between. -/
namespace Kivi

open Bytes (ofString)
open LinkedList (Fault)
open RecencyCache (Assoc)

namespace KiviTreeServer

variable {ι : Type} [DecidableEq ι] {capacity : ℕ}

/-- The shared store, and the replies sent to each client. -/
structure Serving (ι : Type) where
  store : KiviTree
  sent : ι → List Bytes

def Serving.new (capacity : ℕ) : Serving ι := ⟨.new capacity,fun _ => []⟩

def Serving.replied (i : ι) (store : KiviTree) (bytes : Bytes) (s : Serving ι) : Serving ι :=
  ⟨store,Function.update s.sent i (s.sent i ++ [bytes])⟩

@[simp] theorem Serving.replied_store (i : ι) (store : KiviTree) (bytes : Bytes) (s : Serving ι) :
    (s.replied i store bytes).store = store := rfl

@[simp] theorem Serving.replied_self (i : ι) (store : KiviTree) (bytes : Bytes) (s : Serving ι) :
    (s.replied i store bytes).sent i = s.sent i ++ [bytes] := Function.update_self _ _ _

theorem Serving.replied_ne {i j : ι} (h : j ≠ i) (store : KiviTree) (bytes : Bytes)
    (s : Serving ι) : (s.replied i store bytes).sent j = s.sent j := Function.update_of_ne h _ _

def serveRead (i : ι) (read : Read) (s : Serving ι) : Except Fault (Serving ι) := do
  let now ← handleRead read.bytes s.store
  return s.replied i now.store now.sent

def serve : List (ι × Read) → Serving ι → Except Fault (Serving ι)
  | [], s => return s
  | e::es, s => do serve es (← serveRead e.1 e.2 s)

def expected : Request → Assoc Bytes Bytes → Bytes
  | .get k, l => (l.lookup k.bytes).getD (ofString "NOT_FOUND") ++ ofString "\n"
  | .put _ _, _ => ofString "OK\n"
  | .del _, _ => ofString "OK\n"

/-- The replies to one client when the reference cache handles the requests of all of them. -/
def repliesTo (capacity : ℕ) (i : ι) : List (ι × Request) → Assoc Bytes Bytes → List Bytes
  | [], _ => []
  | e::es, l =>
    let later := repliesTo capacity i es (RecencyCache.step capacity e.2.op l).1
    if e.1 = i then expected e.2 l :: later else later

/-- A client that is served alone has the session of its thread. -/
theorem serve_alone (i : ι) (reads : List Read) {s : Serving ι} {session : Session}
    (h : handleClient reads s.store = .ok session) :
    ∃ final, serve (reads.map fun read => (i,read)) s = .ok final ∧
      final.store = session.store ∧ (final.sent i).flatten = (s.sent i).flatten ++ session.sent := by
  induction reads generalizing s session with
  | nil =>
    obtain rfl := Except.ok.inj h
    exact ⟨s,rfl,rfl,by simp⟩
  | cons read reads ih =>
    obtain ⟨now,hnow,hlater⟩ := except_bind_eq_ok.mp h
    obtain ⟨later,hclient,hsession⟩ := except_bind_eq_ok.mp hlater
    obtain rfl := Except.ok.inj hsession
    obtain ⟨final,hfinal,hstore,hsent⟩ := ih
      (s:=s.replied i now.store now.sent) hclient
    refine ⟨final,?_,hstore,?_⟩
    · simp only [List.map_cons,serve,serveRead,hnow,except_bind_ok,except_pure]
      exact hfinal
    · rw [hsent,Serving.replied_self]
      simp

theorem reply_eq_expected (capacity : ℕ) (r : Request) (l : Assoc Bytes Bytes) :
    reply (RecencyCache.step capacity r.op l).2 = expected r l := by
  cases r with
  | get k => simp only [Request.op,RecencyCache.step,RecencyCache.get_answer,reply,expected]
  | put k v => rfl
  | del k => rfl

theorem serveRead_spec (hc : 1 ≤ capacity) {s : Serving ι} {l : Assoc Bytes Bytes}
    (hcap : s.store.engine.capacity = capacity) (hl : s.store.engine.Represents l) (i : ι)
    {r : Request} (hplain : r.Plain) {read : Read} (hread : read.bytes = r.body ++ [newline]) :
    ∃ store, serveRead i read s = .ok (s.replied i store (expected r l)) ∧
      store.engine.capacity = capacity ∧
      store.engine.Represents (RecencyCache.step capacity r.op l).1 := by
  obtain ⟨engine,hstep,hcap',hl'⟩ := LRUStore.simulates hc r.op s.store.engine l ⟨hcap,hl⟩
  have hasks : asksFor read = some r.op := by
    rw [asksFor,hread,parse_concat_newline,parse_body hplain]
  have hround : handleRead read.bytes s.store =
      .ok ⟨⟨engine⟩,[r.op],expected r l⟩ := by
    simp only [handleRead_eq,hasks,perform,hstep,except_bind_ok,except_pure,reply_eq_expected]
  refine ⟨⟨engine⟩,?_,hcap',hl'⟩
  simp only [serveRead,hround,except_bind_ok,except_pure]

/-- All requests, in whatever order those of the clients come. -/
theorem serve_spec (hc : 1 ≤ capacity) (requests : List (ι × Request)) {events : List (ι × Read)}
    {s : Serving ι} {l : Assoc Bytes Bytes} (hcap : s.store.engine.capacity = capacity)
    (hl : s.store.engine.Represents l) (hplain : ∀ e ∈ requests, e.2.Plain)
    (halone : events.map (fun e => (e.1,e.2.bytes)) =
      requests.map fun e => (e.1,e.2.body ++ [newline])) :
    ∃ final, serve events s = .ok final ∧
      ∀ i, final.sent i = s.sent i ++ repliesTo capacity i requests l := by
  induction requests generalizing events s l with
  | nil =>
    obtain rfl := List.map_eq_nil_iff.mp halone
    exact ⟨s,rfl,fun i => (List.append_nil _).symm⟩
  | cons e requests ih =>
    cases events with
    | nil => simp at halone
    | cons event events =>
      simp only [List.map_cons,List.cons.injEq,Prod.mk.injEq] at halone
      obtain ⟨⟨hclient,hread⟩,hrest⟩ := halone
      have hone := hplain e List.mem_cons_self
      obtain ⟨store,hserve,hcap',hl'⟩ := serveRead_spec hc hcap hl event.1 hone hread
      obtain ⟨final,hfinal,hsent⟩ := ih
        (s:=s.replied event.1 store (expected e.2 l))
        hcap' hl' (fun e he => hplain e (List.mem_cons_of_mem _ he)) hrest
      refine ⟨final,by simp only [serve,hserve,except_bind_ok,hfinal],fun i => ?_⟩
      rw [hsent,repliesTo,← hclient]
      by_cases hi : event.1 = i
      · subst i
        rw [Serving.replied_self,if_pos rfl,List.append_assoc]
        rfl
      · rw [Serving.replied_ne (Ne.symm hi),if_neg hi]

/-- Whatever requests any number of clients send in whatever order, each alone in a read of its
own, every client gets the replies of the reference cache. -/
theorem sessions_eq_reference (hc : 1 ≤ capacity) (requests : List (ι × Request))
    (hplain : ∀ e ∈ requests, e.2.Plain) (events : List (ι × Read))
    (halone : events.map (fun e => (e.1,e.2.bytes)) =
      requests.map fun e => (e.1,e.2.body ++ [newline])) :
    ∃ final, serve events (.new capacity) = .ok final ∧
      ∀ i, final.sent i = repliesTo capacity i requests ∅ := by
  obtain ⟨final,hfinal,hsent⟩ := serve_spec hc requests (s:=.new capacity) rfl
    (LRUStore.represents_new capacity) hplain halone
  exact ⟨final,hfinal,fun i => (hsent i).trans (List.nil_append _)⟩

/-- One client puts a value with blanks, another one gets it and misses a second key. -/
theorem sessions_eq_reference_two :
    ∃ final : Serving Bool, serve
        [(false,⟨ofString "PUT k GET  x \n",by decide,by decide⟩),
          (true,⟨ofString "GET k\n",by decide,by decide⟩),
          (true,⟨ofString "GET j\n",by decide,by decide⟩)] (.new 1) = .ok final ∧
      final.sent false = [ofString "OK\n"] ∧
      final.sent true = [ofString "GET  x \n",ofString "NOT_FOUND\n"] := by
  let k : Field := ⟨ofString "k",by decide,by decide,by decide⟩
  let j : Field := ⟨ofString "j",by decide,by decide,by decide⟩
  let v : Field := ⟨ofString "GET  x ",by decide,by decide,by decide⟩
  have hk : ∀ b ∈ k.bytes, isspace b = false := by decide +kernel
  have hj : ∀ b ∈ j.bytes, isspace b = false := by decide +kernel
  have hv : ∀ b ∈ v.bytes.head?, isspace b = false := by decide +kernel
  have hplain : ∀ e ∈ [(false,Request.put k v),(true,.get k),(true,.get j)], e.2.Plain := by
    simp only [List.forall_mem_cons,List.not_mem_nil,false_imp_iff,implies_true,and_true]
    exact ⟨⟨hk,hv⟩,hk,hj⟩
  obtain ⟨final,hfinal,hsent⟩ := sessions_eq_reference (le_refl 1)
    [(false,Request.put k v),(true,.get k),(true,.get j)] hplain
    [(false,⟨ofString "PUT k GET  x \n",by decide,by decide⟩),
      (true,⟨ofString "GET k\n",by decide,by decide⟩),
      (true,⟨ofString "GET j\n",by decide,by decide⟩)] (by decide)
  exact ⟨final,hfinal,(hsent false).trans (by decide +kernel),(hsent true).trans (by decide +kernel)⟩

end KiviTreeServer
end Kivi
