import Kivi.Server.TextServer
import Kivi.Library.Framing

/-! How the bytes of a client's requests may be cut into reads. -/
namespace Kivi

open Bytes (ofString)
open LinkedList (Fault)
open RecencyCache (Op)
open Token (extract)
open Framing (Framed Holds stream)

def space : UInt8 := 32

structure Field where
  bytes : Bytes
  nonempty : bytes ≠ []
  noNul : 0 ∉ bytes
  noNewline : newline ∉ bytes

inductive Request
  | get (key : Field)
  | put (key value : Field)
  | del (key : Field)

namespace Request

def body : Request → Bytes
  | .get k => ofString "GET" ++ space :: k.bytes
  | .put k v => ofString "PUT" ++ space :: (k.bytes ++ space :: v.bytes)
  | .del k => ofString "DEL" ++ space :: k.bytes

def line (r : Request) : Bytes := r.body ++ [newline]

def op : Request → Op Bytes Bytes
  | .get k => .get k.bytes
  | .put k v => .put k.bytes v.bytes
  | .del k => .remove k.bytes

/-- No whitespace where the server takes it for the end of a word: in a key, or at the head of
a value. -/
def Plain : Request → Prop
  | .get k => ∀ c ∈ k.bytes, isspace c = false
  | .put k v => (∀ c ∈ k.bytes, isspace c = false) ∧ ∀ c ∈ v.bytes.head?, isspace c = false
  | .del k => ∀ c ∈ k.bytes, isspace c = false

end Request

namespace KiviTreeServer

variable {c s : Bytes} {r : Request}

/-! ### The newline of a line -/

theorem parse_cons_newline (s : Bytes) : parse (newline :: s) = parse s := by
  have htake : (newline :: s).takeWhile (· != 0) = newline :: s.takeWhile (· != 0) := rfl
  simp only [parse,htake,Token.extract_cons (show isspace newline = true by rfl)]

theorem getline_concat_newline (iss : Bytes) : getline (iss ++ [newline]) = getline iss := by
  by_cases hall : ∀ b ∈ iss, isspace b = true
  · have hnil : iss.dropWhile isspace = [] := List.dropWhile_eq_nil_iff.mpr hall
    have hnil' : (iss ++ [newline]).dropWhile isspace = [] := by
      rw [List.dropWhile_append_of_pos hall]
      rfl
    rw [getline,getline,hnil,hnil']
  · rw [getline,getline,Token.dropWhile_append_of_stop hall,Token.takeWhile_concat (by rfl)]

theorem parse_concat_newline (s : Bytes) : parse (s ++ [newline]) = parse s := by
  by_cases hnul : ∀ b ∈ s, (b != 0) = true
  swap
  · simp only [parse,Token.takeWhile_append_of_stop hnul]
  have hleft : s.takeWhile (· != 0) = s := List.takeWhile_eq_self_iff.mpr hnul
  have htake : (s ++ [newline]).takeWhile (· != 0) = s ++ [newline] := by
    rw [List.takeWhile_append_of_pos hnul]
    rfl
  have hspace : isspace newline = true := rfl
  simp only [parse,htake,hleft]
  obtain ⟨hcmd,hiss⟩ := Token.extract_concat hspace s
  rw [hcmd]
  rcases hiss with hiss | ⟨hiss,hnil⟩
  swap
  · rw [hiss,hnil]
  rw [hiss]
  obtain ⟨hkey,hrest⟩ := Token.extract_concat hspace (extract isspace s).2
  rw [hkey]
  rcases hrest with hrest | ⟨hrest,hnil⟩
  · rw [hrest,getline_concat_newline]
  · rw [hrest,hnil]

/-! ### What the line of a request is taken for -/

def commands : List Bytes := [ofString "GET",ofString "PUT",ofString "DEL"]

theorem commands_plain : ∀ cmd ∈ commands, cmd.length = 3 ∧
    ∀ b ∈ cmd, isspace b = false ∧ (b != 0) = true := by decide +kernel

theorem ne_nul (f : Field) : ∀ b ∈ f.bytes, (b != 0) = true := by
  intro b hb
  have hne : b ≠ 0 := fun h => f.noNul (h ▸ hb)
  simpa using hne

theorem ne_nul_append {s t : Bytes} (hs : ∀ b ∈ s, (b != 0) = true)
    (ht : ∀ b ∈ t, (b != 0) = true) : ∀ b ∈ s ++ space :: t, (b != 0) = true := by
  intro b hb
  rcases List.mem_append.mp hb with hb | hb
  · exact hs b hb
  rcases List.mem_cons.mp hb with rfl | hb
  · rfl
  · exact ht b hb

theorem isspace_head (s : Bytes) : ∀ b ∈ (space :: s).head?, isspace b = true := by
  intro b hb
  obtain rfl : space = b := Option.some.inj hb
  rfl

theorem extract_line {cmd args : Bytes} {k : Field} (hcmd : cmd ∈ commands)
    (hk : ∀ b ∈ k.bytes, isspace b = false) (hargs : ∀ b ∈ args.head?, isspace b = true) :
    extract isspace (cmd ++ space :: (k.bytes ++ args)) = (cmd,space :: (k.bytes ++ args)) ∧
      extract isspace (space :: (k.bytes ++ args)) = (k.bytes,args) := by
  obtain ⟨hlength,hplain⟩ := commands_plain cmd hcmd
  have hne : cmd ≠ [] := by
    rintro rfl
    simp at hlength
  have hgap : ∀ b ∈ ([] : Bytes), isspace b = true := by simp
  constructor
  · exact Token.extract_append hgap hne (fun b hb => (hplain b hb).1) (isspace_head _)
  · rw [Token.extract_cons (by rfl)]
    exact Token.extract_append hgap k.nonempty hk hargs

theorem getline_value {v : Field} (hv : ∀ b ∈ v.bytes.head?, isspace b = false) :
    getline (space :: v.bytes) = v.bytes := by
  have hskip : (space :: v.bytes).dropWhile isspace = v.bytes := by
    rw [List.dropWhile_cons_of_pos (by rfl)]
    cases hbytes : v.bytes with
    | nil => rfl
    | cons b rest =>
      rw [hbytes] at hv
      simp [hv b rfl]
  have hline : ∀ b ∈ v.bytes, (b != newline) = true := by
    intro b hb
    have hne : b ≠ newline := fun h => v.noNewline (h ▸ hb)
    simpa using hne
  rw [getline,hskip,List.takeWhile_eq_self_iff.mpr hline]

theorem takeWhile_body (r : Request) : r.body.takeWhile (· != 0) = r.body := by
  have hcommand : ∀ cmd ∈ commands, ∀ b ∈ cmd, (b != 0) = true := fun cmd hcmd b hb =>
    ((commands_plain cmd hcmd).2 b hb).2
  apply List.takeWhile_eq_self_iff.mpr
  cases r with
  | get k => exact ne_nul_append (hcommand _ (by simp [commands])) (ne_nul k)
  | put k v =>
    exact ne_nul_append (hcommand _ (by simp [commands])) (ne_nul_append (ne_nul k) (ne_nul v))
  | del k => exact ne_nul_append (hcommand _ (by simp [commands])) (ne_nul k)

theorem parse_body (h : r.Plain) : parse r.body = some r.op := by
  have hend : ∀ b ∈ ([] : Bytes).head?, isspace b = true := by simp
  rw [parse,takeWhile_body]
  cases r with
  | get k =>
    have hwords := extract_line (show ofString "GET" ∈ commands by simp [commands]) h hend
    rw [List.append_nil] at hwords
    simp only [Request.body,hwords.1,hwords.2]
    rfl
  | put k v =>
    have hwords := extract_line (show ofString "PUT" ∈ commands by simp [commands]) h.1
      (isspace_head v.bytes)
    simp only [Request.body,hwords.1,hwords.2,getline_value h.2]
    rfl
  | del k =>
    have hwords := extract_line (show ofString "DEL" ∈ commands by simp [commands]) h hend
    rw [List.append_nil] at hwords
    simp only [Request.body,hwords.1,hwords.2]
    rfl

/-! ### What a read that is taken for a request holds -/

/-- The two words of a read and where they stand. -/
structure Words (c cmd key rest : Bytes) : Prop where
  split : ∃ gap between tail, c = gap ++ cmd ++ between ++ key ++ rest ++ tail ∧
    (key ≠ [] → between ≠ [])
  key : ∀ b ∈ key, isspace b = false
  rest : ∀ b ∈ rest.head?, isspace b = true

theorem words_of_read (c : Bytes) :
    Words c (extract isspace (c.takeWhile (· != 0))).1
      (extract isspace (extract isspace (c.takeWhile (· != 0))).2).1
      (extract isspace (extract isspace (c.takeWhile (· != 0))).2).2 := by
  have hiss : c.takeWhile (· != 0) ++ c.dropWhile (· != 0) = c := List.takeWhile_append_dropWhile
  generalize c.takeWhile (· != 0) = iss at hiss ⊢
  generalize hcmd : extract isspace iss = p
  generalize hkey : extract isspace p.2 = q
  have hparts : iss.takeWhile isspace ++ p.1 ++ p.2 = iss := hcmd ▸ Token.extract_parts isspace iss
  have hparts' : p.2.takeWhile isspace ++ q.1 ++ q.2 = p.2 :=
    hkey ▸ Token.extract_parts isspace p.2
  have hhead : ∀ b ∈ p.2.head?, isspace b = true := fun b hb =>
    Token.sep_of_head_extract (hcmd.symm ▸ hb)
  refine ⟨⟨iss.takeWhile isspace,p.2.takeWhile isspace,c.dropWhile (· != 0),?_,fun hne => ?_⟩,
    fun b hb => Token.sep_of_mem_extract (hkey.symm ▸ hb),
    fun b hb => Token.sep_of_head_extract (hkey.symm ▸ hb)⟩
  · have hall : iss.takeWhile isspace ++ p.1 ++ p.2.takeWhile isspace ++ q.1 ++ q.2 = iss := by
      calc iss.takeWhile isspace ++ p.1 ++ p.2.takeWhile isspace ++ q.1 ++ q.2
          = iss.takeWhile isspace ++ p.1 ++ (p.2.takeWhile isspace ++ q.1 ++ q.2) := by
            simp only [List.append_assoc]
        _ = iss.takeWhile isspace ++ p.1 ++ p.2 := by rw [hparts']
        _ = iss := hparts
    rw [hall,hiss]
  · apply Token.takeWhile_ne_nil hhead
    intro hnil
    rw [hnil,List.append_eq_nil_iff,List.append_eq_nil_iff] at hparts'
    exact hne hparts'.1.2

theorem parse_cases {op : Op Bytes Bytes} (h : parse c = some op) :
    ∃ cmd ∈ commands, ∃ key rest, Words c cmd key rest ∧
      (op = .get key ∨ op = .put key (getline rest) ∨ op = .remove key) := by
  have hwords := words_of_read c
  unfold parse at h
  rcases hcmd : extract isspace (c.takeWhile (· != 0)) with ⟨cmd,iss⟩
  rcases hkey : extract isspace iss with ⟨key,rest⟩
  simp only [hcmd,hkey] at h hwords
  by_cases hget : cmd = ofString "GET"
  · rw [if_pos hget,Option.some.injEq] at h
    exact ⟨cmd,by simp [commands,hget],key,rest,hwords,.inl h.symm⟩
  by_cases hput : cmd = ofString "PUT"
  · rw [if_neg hget,if_pos hput,Option.some.injEq] at h
    exact ⟨cmd,by simp [commands,hput],key,rest,hwords,.inr (.inl h.symm)⟩
  by_cases hdel : cmd = ofString "DEL"
  · rw [if_neg hget,if_neg hput,if_pos hdel,Option.some.injEq] at h
    exact ⟨cmd,by simp [commands,hdel],key,rest,hwords,.inr (.inr h.symm)⟩
  · simp [hget,hput,hdel] at h

theorem holds_of_core {b gap cmd mid last tail : Bytes} (hcmd : cmd ∈ commands) (hlast : last ≠ [])
    (hline : newline ∉ last) (hb : b.length ≤ 3 + mid.length + last.length) :
    Holds newline b (gap ++ (cmd ++ mid ++ last) ++ tail) := by
  obtain ⟨hlength,hplain⟩ := commands_plain cmd hcmd
  refine ⟨gap,cmd ++ mid ++ last,tail,rfl,?_,?_,?_,?_⟩
  · simp only [List.length_append,hlength]
    exact hb
  · simp [hlast]
  · intro hhead
    cases cmd with
    | nil => simp at hlength
    | cons x cmd =>
      obtain rfl : x = newline := Option.some.inj hhead
      have hspace := (hplain newline List.mem_cons_self).1
      contradiction
  · rw [List.getLast?_append_of_ne_nil _ hlast]
    intro hend
    exact hline (List.mem_of_getLast? hend)

theorem newline_notMem_getline (iss : Bytes) : newline ∉ getline iss := by
  intro h
  have hne := List.mem_takeWhile_imp h
  simp at hne

theorem getline_head (iss : Bytes) : ∀ b ∈ (getline iss).head?, isspace b = false := by
  intro b hb
  have hstop := List.head?_dropWhile_not isspace iss
  cases hrest : iss.dropWhile isspace with
  | nil => simp [getline,hrest] at hb
  | cons x rest =>
    rw [hrest] at hstop
    have hx : isspace x = false := hstop
    have hne : (x != newline) = true := by
      rw [bne_iff_ne]
      rintro rfl
      contradiction
    have hline : getline iss = x :: rest.takeWhile (· != newline) := by
      simp only [getline,hrest,List.takeWhile_cons,hne,if_true]
    rw [hline] at hb
    obtain rfl : x = b := Option.some.inj hb
    exact hx

theorem Words.holds_key {cmd key rest b : Bytes} (h : Words c cmd key rest) (hcmd : cmd ∈ commands)
    (hkey : key ≠ []) (hb : b.length = 4 + key.length) : Holds newline b c := by
  obtain ⟨gap,between,tail,hc,hbetween⟩ := h.split
  have hpos := List.length_pos_iff.mpr (hbetween hkey)
  have hline : newline ∉ key := by
    intro hmem
    have hspace := h.key newline hmem
    contradiction
  have hc' : c = gap ++ (cmd ++ between ++ key) ++ (rest ++ tail) := by
    simp only [hc,List.append_assoc]
  rw [hc']
  exact holds_of_core hcmd hkey hline (by omega)

theorem Words.holds_value {cmd key rest b : Bytes} (h : Words c cmd key rest)
    (hcmd : cmd ∈ commands) (hkey : key ≠ []) (hvalue : getline rest ≠ [])
    (hb : b.length = 5 + key.length + (getline rest).length) : Holds newline b c := by
  obtain ⟨gap,between,tail,hc,hbetween⟩ := h.split
  have hpos := List.length_pos_iff.mpr (hbetween hkey)
  have hrest : rest ≠ [] := by
    rintro rfl
    exact hvalue rfl
  have hpos' := List.length_pos_iff.mpr (Token.takeWhile_ne_nil h.rest hrest)
  have hsplit : rest.takeWhile isspace ++ (getline rest ++
      (rest.dropWhile isspace).dropWhile (· != newline)) = rest := by
    rw [getline,List.takeWhile_append_dropWhile,List.takeWhile_append_dropWhile]
  have hc' : c = gap ++ (cmd ++ (between ++ key ++ rest.takeWhile isspace) ++ getline rest) ++
      ((rest.dropWhile isspace).dropWhile (· != newline) ++ tail) := by
    rw [hc]
    nth_rewrite 1 [← hsplit]
    simp only [List.append_assoc]
  rw [hc']
  refine holds_of_core hcmd hvalue (newline_notMem_getline rest) ?_
  simp only [List.length_append]
  omega

/-- A read is taken for a request only if that is plain, and the read then holds its line. -/
theorem holds_of_parse (h : parse c = some r.op) : r.Plain ∧ Holds newline r.body c := by
  obtain ⟨cmd,hcmd,key,rest,hwords,hop⟩ := parse_cases h
  have hlength : ∀ cmd ∈ commands, cmd.length = 3 := fun cmd hcmd => (commands_plain cmd hcmd).1
  cases r with
  | get k =>
    obtain rfl : k.bytes = key := by simpa [Request.op] using hop
    refine ⟨hwords.key,hwords.holds_key hcmd k.nonempty ?_⟩
    simp only [Request.body,List.length_append,List.length_cons,
      hlength _ (show ofString "GET" ∈ commands by simp [commands])]
    omega
  | put k v =>
    obtain ⟨rfl,hvalue⟩ : k.bytes = key ∧ v.bytes = getline rest := by simpa [Request.op] using hop
    have hhead := getline_head rest
    have hne := v.nonempty
    rw [← hvalue] at hhead
    rw [hvalue] at hne
    refine ⟨⟨hwords.key,hhead⟩,hwords.holds_value hcmd k.nonempty hne ?_⟩
    simp only [Request.body,List.length_append,List.length_cons,hvalue,
      hlength _ (show ofString "PUT" ∈ commands by simp [commands])]
    omega
  | del k =>
    obtain rfl : k.bytes = key := by simpa [Request.op] using hop
    refine ⟨hwords.key,hwords.holds_key hcmd k.nonempty ?_⟩
    simp only [Request.body,List.length_append,List.length_cons,
      hlength _ (show ofString "DEL" ∈ commands by simp [commands])]
    omega

/-! ### Reads and requests -/

section Stream

variable {requests : List Request} {reads : List Read}

/-- A framed read is taken for what its line would be taken for, whatever the line. -/
theorem parse_of_framed {owed : Bytes} (howed : owed = [] ∨ owed = [newline]) {bodies : List Bytes}
    (h : Framed newline owed bodies (reads.map Read.bytes)) :
    reads.map asksFor = bodies.map parse := by
  induction reads generalizing owed bodies with
  | nil =>
    cases bodies with
    | nil => rfl
    | cons b bodies => exact h.elim
  | cons read reads ih =>
    cases bodies with
    | nil => exact h.elim
    | cons b bodies =>
      have hskip : ∀ s, parse (owed ++ s) = parse s := by
        intro s
        rcases howed with rfl | rfl
        · rfl
        · exact parse_cons_newline s
      rw [List.map_cons,List.map_cons,asksFor]
      rcases h with ⟨hread,h⟩ | ⟨hread,h⟩
      · rw [hread,parse_concat_newline,hskip,ih (.inl rfl) h]
      · rw [hread,hskip,ih (.inr rfl) h]

/-- The reads are taken for the requests one by one exactly when the requests are plain and the
reads are cut at their newlines. -/
theorem asksFor_eq_iff (hstream : (reads.map Read.bytes).flatten =
      stream newline (requests.map Request.body)) :
    reads.map asksFor = (requests.map Request.op).map some ↔
      (∀ r ∈ requests, r.Plain) ∧
        Framed newline [] (requests.map Request.body) (reads.map Read.bytes) := by
  constructor
  · intro h
    have hall : List.Forall₂ Eq ((requests.map Request.op).map some) (reads.map asksFor) := by
      rw [List.forall₂_eq_eq_eq]
      exact h.symm
    rw [List.map_map,List.forall₂_map_left_iff,List.forall₂_map_right_iff] at hall
    have hboth := hall.imp fun r read hr => holds_of_parse (c:=read.bytes) (r:=r) hr.symm
    obtain ⟨hplain,hholds⟩ := (List.forall₂_and_left _ _).mp hboth
    have hlines : List.Forall₂ (Holds newline) (requests.map Request.body)
        (reads.map Read.bytes) := by
      rw [List.forall₂_map_left_iff,List.forall₂_map_right_iff]
      exact hholds
    rw [← List.nil_append (reads.map Read.bytes).flatten] at hstream
    exact ⟨hplain,(Framing.framed_of_holds hlines hstream).2⟩
  · rintro ⟨hplain,hframed⟩
    rw [parse_of_framed (.inl rfl) hframed,List.map_map,List.map_map]
    apply List.map_congr_left
    intro r hr
    exact parse_body (hplain r hr)

/-- What the server makes of lines that come one in each buffer. -/
def handleLines : List Bytes → KiviTree → Except Fault Session
  | [], store => return ⟨store,[],[]⟩
  | line::lines, store => do
    let now ← handleRead line store
    let later ← handleLines lines now.store
    return ⟨later.store,now.performed ++ later.performed,now.sent ++ later.sent⟩

theorem handleClient_of_lines {lines : List Bytes} (h : reads.map asksFor = lines.map parse)
    (store : KiviTree) : handleClient reads store = handleLines lines store := by
  induction reads generalizing lines store with
  | nil =>
    cases lines with
    | nil => rfl
    | cons line lines => simp at h
  | cons read reads ih =>
    cases lines with
    | nil => simp at h
    | cons line lines =>
      simp only [List.map_cons,List.cons.injEq] at h
      rw [handleClient,handleLines,handleRead_eq,handleRead_parse,h.1]
      congr 1
      funext now
      rw [ih h.2]

/-- The session of a client is that of its requests, performed once each and in order, exactly
when these are plain and every read holds one of them: it ends right behind or right before the
newline of the line. Reads cut like that are handled like one line each, plain or not. -/
theorem session_eq_iff {capacity : ℕ} {store : KiviTree} (hc : 1 ≤ capacity)
    (hstore : Refinement.Reaches LRUStore.step (LRUStore.new capacity) store.engine)
    (hstream : (reads.map Read.bytes).flatten = stream newline (requests.map Request.body)) :
    (handleClient reads store = performEach (requests.map Request.op) store ↔
      (∀ r ∈ requests, r.Plain) ∧
        Framed newline [] (requests.map Request.body) (reads.map Read.bytes)) ∧
    (Framed newline [] (requests.map Request.body) (reads.map Read.bytes) →
      handleClient reads store = handleLines (requests.map Request.line) store) := by
  refine ⟨(handleClient_eq_iff hc hstore).trans (asksFor_eq_iff hstream),fun hframed => ?_⟩
  have hlines : (requests.map Request.line).map parse = (requests.map Request.body).map parse := by
    rw [List.map_map,List.map_map]
    exact List.map_congr_left fun r _ => parse_concat_newline r.body
  exact handleClient_of_lines ((parse_of_framed (.inl rfl) hframed).trans hlines.symm) store

end Stream

/-! ### A put that arrives in two reads -/

def helloPut : Request :=
  .put ⟨ofString "k",by decide,by decide,by decide⟩ ⟨ofString "hello",by decide,by decide,by decide⟩

def wholePut : List Read := [⟨ofString "PUT k hello\n",by decide,by decide⟩]

def splitPut : List Read :=
  [⟨ofString "PUT k hel",by decide,by decide⟩,⟨ofString "lo\n",by decide,by decide⟩]

/-- The first read is taken for a put of the value so far. -/
theorem not_session_eq : ¬ ∀ (capacity : ℕ) (store : KiviTree) (requests : List Request)
    (reads : List Read), 1 ≤ capacity →
      Refinement.Reaches LRUStore.step (LRUStore.new capacity) store.engine →
      (reads.map Read.bytes).flatten = stream newline (requests.map Request.body) →
      handleClient reads store = performEach (requests.map Request.op) store := by
  intro h
  have heq := h 100 (.new 100) [helloPut] splitPut (by decide) .start (by decide)
  have hasks := (handleClient_eq_iff (by decide) .start).mp heq
  exact absurd (congrArg List.length hasks) (by decide)

def spacedGet : Request := .get ⟨ofString "a b",by decide,by decide,by decide⟩

def spacedReads : List Read :=
  [⟨ofString "GET a b",by decide,by decide⟩,⟨ofString "\nPUT k hello\n",by decide,by decide⟩]

/-- One and the same line, in one read and in two; and two lines whose reads are cut between
them, of which the first is not plain. -/
theorem session_eq_iff_hello :
    handleClient wholePut (.new 100) = performEach [helloPut.op] (.new 100) ∧
      handleClient splitPut (.new 100) ≠ performEach [helloPut.op] (.new 100) ∧
      handleClient spacedReads (.new 100) =
        handleLines [spacedGet.line,helloPut.line] (.new 100) := by
  have hwhole : (wholePut.map Read.bytes).flatten = stream newline ([helloPut].map Request.body) := by
    decide
  have hsplit : (splitPut.map Read.bytes).flatten = stream newline ([helloPut].map Request.body) := by
    decide
  have hspaced : (spacedReads.map Read.bytes).flatten =
      stream newline ([spacedGet,helloPut].map Request.body) := by decide
  refine ⟨?_,?_,?_⟩
  · refine (session_eq_iff (by decide) .start hwhole).1.mpr ⟨fun r hr => ?_,.inl ⟨by decide,rfl⟩⟩
    obtain rfl := List.mem_singleton.mp hr
    exact ⟨by decide +kernel,by decide +kernel⟩
  · intro heq
    rcases ((session_eq_iff (by decide) .start hsplit).1.mp heq).2 with ⟨_,hrest⟩ | ⟨_,hrest⟩
    · exact hrest.elim
    · exact hrest.elim
  · exact (session_eq_iff (by decide) .start hspaced).2
      (.inr ⟨by decide,.inl ⟨by decide,rfl⟩⟩)

end KiviTreeServer
end Kivi
