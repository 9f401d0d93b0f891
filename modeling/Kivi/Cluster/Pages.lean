import Kivi.Cluster.Heartbeats
import Kivi.Cluster.Provenance

/-! The two pages a node shows of itself, its store and its table, as they are read in the course
of a run. -/
namespace Kivi

open Bytes (ofString isUtf8)
open Transition (Run Taken)
open Json (Writable ofFields ofInt64 ofInt32 ofStringMap toStringMap atKey_ofFields)
open RestController (clusterStatus print)

/-! ### Pages -/

namespace Page

variable {j : Json}

theorem ofContent_writable (h : Writable j) :
    ∃ text, ofContent j = ⟨200,some text⟩ ∧ Json.parseSpaced text = .ok j := by
  refine ⟨j.pretty 4 0,?_,Json.parseSpaced_pretty 4 h.ordered⟩
  have hdump : j.dumpIndented 4 = .ok (j.pretty 4 0) := if_pos h.clean
  rw [ofContent,hdump]

theorem ofContent_unclean (h : j.clean = false) : ofContent j = ⟨500,none⟩ := by
  have hdump : j.dumpIndented 4 = .error .typeError := if_neg (by simp [h])
  rw [ofContent,hdump]

end Page

def Json.getBoolean : Json → Except Json.Error Bool
  | .boolean b => .ok b
  | _ => .error .typeError

namespace PaxosNodeDescriptor

def ofJson (j : Json) : Except Json.Error PaxosNodeDescriptor := do
  return ⟨← (← j.atKey (ofString "node_id")).getInt64,← (← j.atKey (ofString "node_ip")).getString,
    ← (← j.atKey (ofString "node_port")).getInt32,← (← j.atKey (ofString "last_seen")).getInt64,
    ← (← j.atKey (ofString "last_sync")).getInt64,← (← j.atKey (ofString "is_alive")).getBoolean⟩

theorem ofJson_toJson (n : PaxosNodeDescriptor) : ofJson n.toJson = .ok n := by
  simp +decide [ofJson,toJson,ofFields,Json.assign,Json.atKey,Json.getBoolean]

theorem writable_toJson {n : PaxosNodeDescriptor} (h : isUtf8 n.nodeIp = true) :
    Writable n.toJson := by
  apply Writable.ofFields
  · simp only [List.map_cons,List.map_nil]
    decide
  · simp [Writable.ofInt64,Writable.ofInt32,Writable.string h,Writable.boolean]

end PaxosNodeDescriptor

theorem Json.clean_ofStringMap (m : UnorderedMap Bytes Bytes) :
    (ofStringMap m).clean = true ↔
      ∀ k v, m.lookup k = some v → isUtf8 k = true ∧ isUtf8 v = true := by
  have hkeys : ((m.entries.map fun e => (e.1,Json.string e.2)).map Prod.fst).Nodup := by
    have hm : (m.entries.map fun e => (e.1,Json.string e.2)).map Prod.fst = m.keys := by
      simp [AList.keys,List.keys,Function.comp_def]
    rw [hm]
    exact m.keys_nodup
  rw [ofStringMap,clean_ofFields_iff hkeys]
  constructor
  · intro h k v hk
    exact h (k,.string v) (List.mem_map.mpr ⟨⟨k,v⟩,AList.mem_lookup_iff.mp hk,rfl⟩)
  · intro h g hg
    obtain ⟨e,he,rfl⟩ := List.mem_map.mp hg
    exact h e.1 e.2 (AList.mem_lookup_iff.mpr he)

namespace Cluster

/-- At any time `GET /print` of a node shows its whole store, all of it put by clients at nodes
that took themselves for the leader; or it fails, and then the store holds a pair so put that is
no text. -/
theorem print_shows {ι : Type} [DecidableEq ι] {launch : ι → Launch}
    {history : List (Taken (Cluster ι) (Event ι))} {s : Cluster ι}
    (hrun : Run step (Cluster.launch launch) history s) (i : ι) :
    (∃ text j es, print (s.leaf i) = ⟨200,some text⟩ ∧ Json.parseSpaced text = .ok j ∧
      j.getStringMap = .ok es ∧
      (toStringMap es).toFinmap = (s.leaf i).kivi.getKvBatch.toFinmap ∧
      ∀ k v, (toStringMap es).lookup k = some v → AcceptedPut history k v) ∨
    print (s.leaf i) = ⟨500,none⟩ ∧ ∃ k v, (s.leaf i).kivi.getKvBatch.lookup k = some v ∧
      AcceptedPut history k v ∧ ¬ (isUtf8 k = true ∧ isUtf8 v = true) := by
  have hfresh : Fresh 100 (Cluster.launch launch) := ⟨fun _ => rfl,rfl⟩
  obtain ⟨l,hl,hsourced⟩ := sourced_of_run (by decide) hfresh hrun
  have haccepted : ∀ k v, (s.leaf i).kivi.getKvBatch.lookup k = some v →
      AcceptedPut history k v := fun k v hk => hsourced.stored i k v (hl.lookup i k ▸ hk)
  cases hclean : (ofStringMap (s.leaf i).kivi.getKvBatch).clean with
  | true =>
    left
    have hutf8 := (Json.clean_ofStringMap _).mp hclean
    obtain ⟨text,hpage,hread⟩ := Page.ofContent_writable (Writable.ofStringMap hutf8)
    obtain ⟨es,hes,hmap⟩ := Json.getStringMap_ofStringMap (s.leaf i).kivi.getKvBatch
    refine ⟨text,_,es,hpage,hread,hes,hmap,fun k v hk => haccepted k v ?_⟩
    rwa [← Finmap.lookup_toFinmap,← hmap,Finmap.lookup_toFinmap]
  | false =>
    right
    have hnot : ¬ ∀ k v, (s.leaf i).kivi.getKvBatch.lookup k = some v →
        isUtf8 k = true ∧ isUtf8 v = true := by
      rw [← Json.clean_ofStringMap,hclean]
      exact Bool.false_ne_true
    simp only [not_forall] at hnot
    obtain ⟨k,v,hk,hbad⟩ := hnot
    exact ⟨Page.ofContent_unclean hclean,k,v,hk,haccepted k v hk,hbad⟩

/-- A client has put one pair at the first node. -/
theorem print_shows_trio : ∃ history s, Run step (Cluster.launch trio) history s ∧
    ∃ text j es, print (s.leaf firstNode) = ⟨200,some text⟩ ∧ Json.parseSpaced text = .ok j ∧
      j.getStringMap = .ok es := by
  have hend : ((Transition.exec step (Cluster.launch trio)
      [.input firstNode reachable (.put [0x6B] [0x76] 5)]).any fun s =>
        decide ((print (s.leaf firstNode)).status = 200)) = true := by
    decide +kernel
  obtain ⟨history,s,hrun,_,hstatus⟩ := Run.of_exec_any _ hend
  rcases print_shows hrun firstNode with ⟨text,j,es,hpage,hread,hes,_⟩ | ⟨hfail,_⟩
  · exact ⟨history,s,hrun,text,j,es,hpage,hread,hes⟩
  · rw [hfail] at hstatus
    cases of_decide_eq_true hstatus

/-- `GET /cluster-status` of a node never fails when the addresses are texts, and shows one entry
for each node it has registered, in this order, as its table has it. -/
theorem status_shows {ι : Type} [DecidableEq ι] {launch : ι → Launch} (hbook : FullBook launch)
    (hip : ∀ i, isUtf8 (launch i).nodeIp = true)
    {history : List (Taken (Cluster ι) (Event ι))} {s : Cluster ι}
    (hrun : Run step (Cluster.launch launch) history s) (i : ι) :
    ∃ text j ns, clusterStatus (s.leaf i) = ⟨200,some text⟩ ∧ Json.parseSpaced text = .ok j ∧
      j.elements.mapM PaxosNodeDescriptor.ofJson = .ok ns ∧ ns = (s.leaf i).localClusterNodes ∧
      ns.map PaxosNodeDescriptor.shared = (launch i).cluster := by
  have hroster := roster_of_run hbook hrun i
  have hcharts := (charted_of_run hbook.toAddressBook hrun).leaves i
  have hwritable : Writable (.array ((s.leaf i).localClusterNodes.map PaxosNodeDescriptor.toJson)) := by
    apply Writable.array
    intro j hj
    obtain ⟨n,hn,rfl⟩ := List.mem_map.mp hj
    obtain ⟨k,_,haddr,_⟩ := hcharts.entry (List.mem_append_left _ hn)
    have hk : n.nodeIp = (launch k).nodeIp := (Prod.mk.inj haddr).1
    exact PaxosNodeDescriptor.writable_toJson (hk ▸ hip k)
  obtain ⟨text,hpage,hread⟩ := Page.ofContent_writable hwritable
  have hread' : ((s.leaf i).localClusterNodes.map PaxosNodeDescriptor.toJson).mapM
      PaxosNodeDescriptor.ofJson = .ok (s.leaf i).localClusterNodes := by
    rw [List.mapM_map]
    refine (mapM_ok (g:=id) fun n _ => PaxosNodeDescriptor.ofJson_toJson n).trans ?_
    rw [List.map_id]
  exact ⟨text,_,_,hpage,hread,hread',rfl,hroster.shared⟩

/-- The page of the third node after a pass that has marked another one dead. -/
theorem status_shows_trio : ∃ history s text j ns, Run step (Cluster.launch trio) history s ∧
    clusterStatus (s.leaf thirdNode) = ⟨200,some text⟩ ∧
    Json.parseSpaced text = .ok j ∧ j.elements.mapM PaxosNodeDescriptor.ofJson = .ok ns ∧
    ns.map PaxosNodeDescriptor.shared = (trio thirdNode).cluster ∧
    (ns.any fun n => !n.isAlive) = true := by
  have hip : ∀ i, isUtf8 (trio i).nodeIp = true := by decide +kernel
  have hend : ((Transition.exec step (Cluster.launch trio)
      [.crash firstNode,.input thirdNode unreachable (.detect 20000 20000)]).any fun s =>
        (s.leaf thirdNode).localClusterNodes.any fun n => !n.isAlive) = true := by
    decide +kernel
  obtain ⟨history,s,hrun,_,hdead⟩ := Run.of_exec_any _ hend
  obtain ⟨text,j,ns,hpage,hread,hns,rfl,hshared⟩ := status_shows trio_fullBook hip hrun thirdNode
  exact ⟨history,s,text,j,_,hrun,hpage,hread,hns,hshared,hdead⟩

end Cluster
end Kivi
