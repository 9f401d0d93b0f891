import Kivi.Core.LRURefinement
import Kivi.Library.Token

/-! The text server: one thread for each client, one request for each read. -/
namespace Kivi

open Bytes (ofString)
open LinkedList (Fault)
open RecencyCache (Op Answer)
open Token (extract)

def newline : UInt8 := 10

/-- `std::isspace` of the default locale. -/
def isspace (c : UInt8) : Bool := c == 32 || (decide (9 ≤ c) && decide (c ≤ 13))

/-- What `read` has put into the buffer: not nothing, and at most `sizeof(buffer) - 1` bytes. -/
structure Read where
  bytes : Bytes
  nonempty : bytes ≠ []
  fits : bytes.length ≤ 1023

/-- The store, the operations performed on it and the bytes sent to the client. -/
structure Session where
  store : KiviTree
  performed : List (Op Bytes Bytes)
  sent : Bytes

namespace KiviTreeServer

/-- `iss >> std::ws` and then `std::getline`. -/
def getline (iss : Bytes) : Bytes := (iss.dropWhile isspace).takeWhile (· != newline)

/-- One round of the loop. The stream is constructed from a C string, which ends at the first
NUL; what is left of it at the end of the round is dropped. -/
def handleRead (buffer : Bytes) (store : KiviTree) : Except Fault Session :=
  let iss := buffer.takeWhile (· != 0)
  let (cmd,iss) := extract isspace iss
  let (key,iss) := extract isspace iss
  if cmd = ofString "GET" then do
    let (store,result) ← store.get key
    return ⟨store,[.get key],result.getD (ofString "NOT_FOUND") ++ ofString "\n"⟩
  else if cmd = ofString "PUT" then do
    let value := getline iss
    let store ← store.put key value
    return ⟨store,[.put key value],ofString "OK\n"⟩
  else if cmd = ofString "DEL" then do
    let (store,_) ← store.remove key
    return ⟨store,[.remove key],ofString "OK\n"⟩
  else return ⟨store,[],ofString "ERR_UNKNOWN_COMMAND\n"⟩

/-- The loop over the reads of one client. -/
def handleClient : List Read → KiviTree → Except Fault Session
  | [], store => return ⟨store,[],[]⟩
  | read::reads, store => do
    let now ← handleRead read.bytes store
    let later ← handleClient reads now.store
    return ⟨later.store,now.performed ++ later.performed,now.sent ++ later.sent⟩

/-! ### What a read asks for -/

def parse (buffer : Bytes) : Option (Op Bytes Bytes) :=
  let iss := buffer.takeWhile (· != 0)
  let (cmd,iss) := extract isspace iss
  let (key,iss) := extract isspace iss
  if cmd = ofString "GET" then some (.get key)
  else if cmd = ofString "PUT" then some (.put key (getline iss))
  else if cmd = ofString "DEL" then some (.remove key)
  else none

def asksFor (read : Read) : Option (Op Bytes Bytes) := parse read.bytes

def reply : Answer Bytes Bytes → Bytes
  | .value v => v.getD (ofString "NOT_FOUND") ++ ofString "\n"
  | _ => ofString "OK\n"

def perform (op : Op Bytes Bytes) (store : KiviTree) : Except Fault Session := do
  let (engine,answer) ← LRUStore.step op store.engine
  return ⟨⟨engine⟩,[op],reply answer⟩

def performEach (ops : List (Op Bytes Bytes)) (store : KiviTree) : Except Fault Session := do
  let (engine,answers) ← Refinement.runAll LRUStore.step ops store.engine
  return ⟨⟨engine⟩,ops,answers.flatMap reply⟩

variable {store : KiviTree} {buffer : Bytes} {reads : List Read} {ops : List (Op Bytes Bytes)}
  {op : Op Bytes Bytes}

theorem perform_get (key : Bytes) (store : KiviTree) :
    perform (.get key) store = do
      let (store,result) ← store.get key
      return ⟨store,[.get key],result.getD (ofString "NOT_FOUND") ++ ofString "\n"⟩ := by
  simp only [perform,LRUStore.step,KiviTree.get,bind_assoc]
  rfl

theorem perform_put (key value : Bytes) (store : KiviTree) :
    perform (.put key value) store = do
      let store ← store.put key value
      return ⟨store,[.put key value],ofString "OK\n"⟩ := by
  simp only [perform,LRUStore.step,KiviTree.put,bind_assoc]
  rfl

theorem perform_remove (key : Bytes) (store : KiviTree) :
    perform (.remove key) store = do
      let (store,_) ← store.remove key
      return ⟨store,[.remove key],ofString "OK\n"⟩ := by
  simp only [perform,LRUStore.step,KiviTree.remove,bind_assoc]
  rfl

/-- A round performs the operation that its buffer is taken for, if any. -/
theorem handleRead_parse (buffer : Bytes) (store : KiviTree) :
    handleRead buffer store =
      match parse buffer with
      | some op => perform op store
      | none => .ok ⟨store,[],ofString "ERR_UNKNOWN_COMMAND\n"⟩ := by
  rcases hcmd : extract isspace (buffer.takeWhile (· != 0)) with ⟨cmd,iss⟩
  rcases hkey : extract isspace iss with ⟨key,rest⟩
  simp only [handleRead,parse,hcmd,hkey]
  by_cases hget : cmd = ofString "GET"
  · simp only [if_pos hget,perform_get]
  by_cases hput : cmd = ofString "PUT"
  · simp only [if_neg hget,if_pos hput,perform_put]
  by_cases hdel : cmd = ofString "DEL"
  · simp only [if_neg hget,if_neg hput,if_pos hdel,perform_remove]
  · simp only [if_neg hget,if_neg hput,if_neg hdel]
    rfl

theorem handleRead_eq (read : Read) (store : KiviTree) :
    handleRead read.bytes store =
      match asksFor read with
      | some op => perform op store
      | none => .ok ⟨store,[],ofString "ERR_UNKNOWN_COMMAND\n"⟩ :=
  handleRead_parse read.bytes store

theorem performEach_cons (op : Op Bytes Bytes) (ops : List (Op Bytes Bytes)) (store : KiviTree) :
    performEach (op :: ops) store = do
      let now ← perform op store
      let later ← performEach ops now.store
      return ⟨later.store,now.performed ++ later.performed,now.sent ++ later.sent⟩ := by
  simp only [performEach,perform,Refinement.runAll,bind_assoc]
  rfl

theorem performed_of_performEach {session : Session} (h : performEach ops store = .ok session) :
    session.performed = ops := by
  unfold performEach at h
  cases hrun : Refinement.runAll LRUStore.step ops store.engine with
  | error fault => simp [hrun,bind,Except.bind] at h
  | ok r =>
    simp only [hrun,except_bind_ok,except_pure,Except.ok.injEq] at h
    rw [← h]

/-! ### Sessions -/

theorem handleClient_of_parse (h : reads.map asksFor = ops.map some)
    (store : KiviTree) : handleClient reads store = performEach ops store := by
  induction reads generalizing ops store with
  | nil =>
    cases ops with
    | nil => rfl
    | cons op ops => simp at h
  | cons read reads ih =>
    cases ops with
    | nil => simp at h
    | cons op ops =>
      simp only [List.map_cons,List.cons.injEq] at h
      rw [handleClient,performEach_cons,handleRead_eq,h.1]
      congr 1
      funext now
      rw [ih h.2]

section Reachable

variable {capacity : ℕ}

theorem perform_ok (hc : 1 ≤ capacity)
    (h : Refinement.Reaches LRUStore.step (LRUStore.new capacity) store.engine)
    (op : Op Bytes Bytes) : ∃ session, perform op store = .ok session ∧
      session.performed = [op] ∧
      Refinement.Reaches LRUStore.step (LRUStore.new capacity) session.store.engine := by
  obtain ⟨_,_,_,hstep⟩ := LRUStore.reachable_wellFormed hc h
  obtain ⟨⟨engine,answer⟩,hr⟩ := hstep op
  refine ⟨⟨⟨engine⟩,[op],reply answer⟩,?_,rfl,h.next hr⟩
  rw [perform,hr]
  rfl

/-- A client has the operations of its reads performed, and is sent an error for each read that
is taken for none. -/
theorem handleClient_ok (hc : 1 ≤ capacity)
    (h : Refinement.Reaches LRUStore.step (LRUStore.new capacity) store.engine)
    (reads : List Read) : ∃ session sent,
      performEach (reads.filterMap asksFor) store = .ok session ∧
      handleClient reads store =
        .ok ⟨session.store,reads.filterMap asksFor,sent⟩ ∧
      sent.length = session.sent.length +
        20*reads.countP fun r => (asksFor r).isNone := by
  induction reads generalizing store with
  | nil => exact ⟨⟨store,[],[]⟩,[],rfl,rfl,rfl⟩
  | cons read reads ih =>
    cases hasks : asksFor read with
    | none =>
      obtain ⟨session,sent,hops,hclient,hlength⟩ := ih h
      have hnow : handleRead read.bytes store =
          .ok ⟨store,[],ofString "ERR_UNKNOWN_COMMAND\n"⟩ := by
        simp only [handleRead_eq,hasks]
      refine ⟨session,ofString "ERR_UNKNOWN_COMMAND\n" ++ sent,?_,?_,?_⟩
      · rwa [List.filterMap_cons_none hasks]
      · rw [handleClient,hnow,List.filterMap_cons_none hasks]
        simp only [except_bind_ok,hclient]
        rfl
      · have herror : (ofString "ERR_UNKNOWN_COMMAND\n").length = 20 := by decide
        rw [List.length_append,herror,hlength,List.countP_cons_of_pos (by rw [hasks]; rfl)]
        omega
    | some op =>
      obtain ⟨now,hperform,hperformed,hreach⟩ := perform_ok hc h op
      obtain ⟨session,sent,hops,hclient,hlength⟩ := ih hreach
      have hnow : handleRead read.bytes store = .ok now := by
        simp only [handleRead_eq,hasks,hperform]
      refine ⟨⟨session.store,now.performed ++ session.performed,now.sent ++ session.sent⟩,
        now.sent ++ sent,?_,?_,?_⟩
      · rw [List.filterMap_cons_some hasks,performEach_cons,hperform]
        simp only [except_bind_ok,hops]
        rfl
      · rw [handleClient,hnow,List.filterMap_cons_some hasks]
        simp only [except_bind_ok,hclient,hperformed]
        rfl
      · rw [List.countP_cons_of_neg (by rw [hasks]; simp)]
        simp only [List.length_append,hlength]
        omega

/-- The session of a client is that of given operations only when its reads are taken for them
one by one. -/
theorem handleClient_eq_iff (hc : 1 ≤ capacity)
    (h : Refinement.Reaches LRUStore.step (LRUStore.new capacity) store.engine) :
    handleClient reads store = performEach ops store ↔
      reads.map asksFor = ops.map some := by
  refine ⟨fun heq => ?_,fun hmap => handleClient_of_parse hmap store⟩
  obtain ⟨session,sent,hops,hclient,hlength⟩ := handleClient_ok hc h reads
  rw [hclient] at heq
  have hperformed : reads.filterMap asksFor = ops := performed_of_performEach heq.symm
  rw [hperformed] at heq hops
  have hsent : sent = session.sent := congrArg Session.sent (Except.ok.inj (heq.trans hops))
  rw [hsent] at hlength
  have hnone : reads.countP (fun r => (asksFor r).isNone) = 0 := by omega
  have hall : ∀ a ∈ reads.map asksFor, a.isSome = true := by
    intro a ha
    obtain ⟨r,hr,rfl⟩ := List.mem_map.mp ha
    have hnot := List.countP_eq_zero.mp hnone r hr
    rw [Option.isNone_iff_eq_none] at hnot
    exact Option.isSome_iff_ne_none.mpr hnot
  rw [← hperformed,List.map_filterMap_some_eq_filter_map_isSome,List.filter_eq_self.mpr hall]

end Reachable

end KiviTreeServer
end Kivi
