import Kivi.Leaf.Detection
import Kivi.Leaf.Machine

/-! The register of the leader is an `int`, the ids of the nodes are not. -/
namespace Kivi

open Bytes (ofString isUtf8)
open RestController (acceptsPut redirectUrl)

def InInt (n : Int64) : Prop := -2^31 ≤ n.toInt ∧ n.toInt < 2^31

/-- An id survives the register exactly when it is in its range. -/
theorem toInt32_toInt64_iff (n : Int64) : n.toInt32.toInt64 = n ↔ InInt n := by
  rw [← Int64.toInt_inj,Int32.toInt_toInt64,Int64.toInt_toInt32,InInt]
  constructor
  · intro h
    have hle := Int.le_bmod (x:=n.toInt) (m:=2^32) (by decide)
    have hlt := Int.bmod_lt (x:=n.toInt) (m:=2^32) (by decide)
    omega
  · rintro ⟨hle,hlt⟩
    exact Int.bmod_eq_of_le (by omega) (by omega)

namespace RestController

theorem isUtf8_redirectUrl {leader : PaxosNodeDescriptor} (h : isUtf8 leader.nodeIp = true) :
    isUtf8 (redirectUrl leader) = true := by
  have hport : isUtf8 (Json.writeInteger (leader.nodePort+1000).toInt) = true :=
    Bytes.isUtf8_ascii fun _ hb => (Json.writeInteger_digit hb).2
  have hscheme := Bytes.isUtf8_append (s:=ofString "http://") (by decide) h
  have hcolon := Bytes.isUtf8_append hscheme (t:=ofString ":") (by decide)
  exact Bytes.isUtf8_append (Bytes.isUtf8_append hcolon hport) (by decide)

/-- The URL is a field value unless the address holds a control character. -/
theorem isFieldValue_redirectUrl (leader : PaxosNodeDescriptor) :
    Fields.isFieldValue (redirectUrl leader) = leader.nodeIp.all Fields.isInner := by
  have hurl : redirectUrl leader = 0x68::((ofString "ttp://" ++ leader.nodeIp ++ ofString ":" ++
      Json.writeInteger (leader.nodePort+1000).toInt ++ ofString "/pu") ++ [0x74]) := by
    simp [redirectUrl,ofString]
  have hport : (Json.writeInteger (leader.nodePort+1000).toInt).all Fields.isInner = true := by
    rw [List.all_eq_true]
    intro b hb
    rcases Json.mem_writeInteger hb with rfl | ⟨hlow,hhigh⟩
    · decide
    · have hvchar : Fields.isVchar b = true :=
        decide_eq_true ⟨UInt8.le_trans (by decide) hlow,UInt8.le_trans hhigh (by decide)⟩
      exact Fields.isInner_of_vchar (by rw [Fields.isFieldVchar,hvchar,Bool.true_or])
  have hscheme : (ofString "ttp://").all Fields.isInner = true := by decide
  have hcolon : (ofString ":").all Fields.isInner = true := by decide
  have hpath : (ofString "/pu").all Fields.isInner = true := by decide
  have hfirst : Fields.isFieldVchar 0x68 = true := by decide
  have hlast : Fields.isFieldVchar 0x74 = true := by decide
  rw [hurl,Fields.isFieldValue_ends]
  simp only [List.all_append,hport,hscheme,hcolon,hpath,hfirst,hlast,Bool.true_and,Bool.and_true]

theorem header_redirectUrl {leader : PaxosNodeDescriptor}
    (h : leader.nodeIp.all Fields.isInner = true) :
    Response.header (redirectUrl leader) = some (redirectUrl leader) := by
  rw [Response.header,isFieldValue_redirectUrl,if_pos h]

theorem redirect_of_lookup {s : KiviLeaf} {leader : PaxosNodeDescriptor}
    (h : s.getCurrentLeader 0 = some leader) :
    (redirect s).location = Response.header (redirectUrl leader) ∧
      (isUtf8 leader.nodeIp = true → (redirect s).status = 307) := by
  constructor
  · rw [redirect,h]
    dsimp only
    split <;> rfl
  · intro hip
    have hurl := isUtf8_redirectUrl hip
    have hclean : (Json.ofFields [(ofString "error",
        .string (ofString "This node is not the leader")),
        (ofString "redirect_to",.string (redirectUrl leader))]).clean = true := by
      apply Json.clean_ofFields
      simp only [List.forall_mem_cons,Json.clean]
      exact ⟨⟨by decide,by decide⟩,⟨by decide,hurl⟩,by simp⟩
    rw [redirect,h]
    dsimp only
    rw [Json.dump_clean hclean]

end RestController

namespace KiviLeaf

variable {s : KiviLeaf} {n : Int64}

/-- The leaf finds the descriptor of `n` as its leader and sends clients to its address, as far
as the HTTP library lets the address through. -/
structure PointsTo (n : Int64) (s : KiviLeaf) (e : PaxosNodeDescriptor) : Prop where
  listed : e ∈ s.localClusterNodes
  nodeId : e.nodeId = n
  lookup : ∀ unset, s.getCurrentLeader unset = some { e with lastSync := unset }
  redirected : s.nodeId ≠ n → ∀ up now key value, ∃ response,
    RestController.put up now key value s = .ok (s,[],response) ∧
    response.location = Response.header (redirectUrl e) ∧
      (isUtf8 e.nodeIp = true → response.status = 307)

theorem acceptsPut_promoted (s : KiviLeaf) : acceptsPut s.promoted = true ↔ InInt s.nodeId := by
  rw [acceptsPut,decide_eq_true_eq,← toInt32_toInt64_iff,eq_comm]
  rfl

theorem pointsTo_iff (hid : s.currentLeaderId = n.toInt32)
    (hlisted : ∃ e ∈ s.localClusterNodes, e.nodeId = n) :
    (∃ e, PointsTo n s e) ↔ InInt n := by
  rw [← toInt32_toInt64_iff,← hid]
  constructor
  · rintro ⟨e,he⟩
    have hlookup := he.lookup 0
    simp only [getCurrentLeader,Option.map_eq_some_iff] at hlookup
    obtain ⟨d,hd,hde⟩ := hlookup
    obtain ⟨_,hfound⟩ := find?_key hd
    have hsame := congrArg PaxosNodeDescriptor.nodeId hde
    change d.nodeId = e.nodeId at hsame
    rw [← hfound,hsame,he.nodeId]
  · intro hregister
    cases hfind : s.localClusterNodes.find? fun e => decide (e.nodeId = s.currentLeaderId.toInt64) with
    | none =>
      obtain ⟨e,he,hn⟩ := hlisted
      have hnot := List.find?_eq_none.mp hfind e he
      rw [hregister,hn] at hnot
      simp at hnot
    | some e =>
      obtain ⟨hmem,hfound⟩ := find?_key hfind
      rw [hregister] at hfound
      have hlookup : ∀ unset, s.getCurrentLeader unset = some { e with lastSync := unset } := by
        intro unset
        rw [getCurrentLeader,hfind]
        rfl
      refine ⟨e,hmem,hfound,hlookup,fun hself up now key value => ?_⟩
      have hrefused : ¬ acceptsPut s = true := by
        rw [acceptsPut,decide_eq_true_eq,hregister]
        exact hself
      have hredirect := RestController.redirect_of_lookup (hlookup 0)
      refine ⟨RestController.redirect s,?_,hredirect⟩
      rw [RestController.put,if_pos hrefused]
      rfl

/-- A node that has promoted itself takes puts, and a node that was told of the promotion
points to the new leader, exactly when the id of the leader fits the register. -/
theorem leaderIdentity_iff (n : Int64) :
    (∀ (s : KiviLeaf) up now, s.nodeId = n → s.leafRole = promotionReadyReplica →
      (s.trySelfPromote up now).1.leafRole = localLeader →
      (acceptsPut (s.trySelfPromote up now).1 = true ↔ InInt n)) ∧
    ∀ (s : KiviLeaf) up clock order timestamp, (∃ e ∈ s.localClusterNodes, e.nodeId = n) →
      ∃ s' packets,
        s.handleMessage up clock order (.localSyncSelfPromotion ⟨n,timestamp⟩) = .ok (s',packets) ∧
        ((∃ e, PointsTo n s' e) ↔ InInt n) := by
  constructor
  · rintro s up now rfl hready hleader
    rcases trySelfPromote_spec up now s with ⟨_,hrun⟩ | ⟨_,hrun⟩
    · rw [hrun]
      exact acceptsPut_promoted s
    · rw [hrun,hready] at hleader
      exact absurd hleader (by decide)
  · intro s up clock order timestamp hlisted
    exact ⟨s.followLeader n clock.now,_,rfl,pointsTo_iff rfl hlisted⟩

/-- The node 4294967298, whose id the register cuts to 2, next to a dead leader. -/
def wideReplica : KiviLeaf :=
  { KiviLeaf.new [] 5001 4294967298 promotionReadyReplica false 1 ⟨0,[],0,0,0,false⟩ 0 with
    localClusterNodes := [⟨1,[],5000,0,-1,false⟩,⟨4294967298,[],5001,0,-1,true⟩] }

def wideFollower : KiviLeaf :=
  { KiviLeaf.new [] 5003 3 promotionReadyReplica false 1 ⟨0,[],0,0,0,false⟩ 0 with
    localClusterNodes := [⟨2,[],5002,0,-1,true⟩,⟨4294967298,[],5001,0,-1,true⟩] }

/-- The new leader refuses puts, and the follower points to the wrong node. -/
theorem not_leaderIdentity :
    (wideReplica.nodeId = 4294967298 ∧ wideReplica.leafRole = promotionReadyReplica ∧
      (wideReplica.trySelfPromote (fun _ _ => true) 0).1.leafRole = localLeader ∧
      acceptsPut (wideReplica.trySelfPromote (fun _ _ => true) 0).1 = false) ∧
    (∃ e ∈ wideFollower.localClusterNodes, e.nodeId = 4294967298) ∧
    ∃ s' packets, wideFollower.handleMessage (fun _ _ => true) ⟨0,0⟩ .stored
        (.localSyncSelfPromotion ⟨4294967298,0⟩) = .ok (s',packets) ∧
      s'.getCurrentLeader 0 = some ⟨2,[],5002,0,0,true⟩ ∧ ¬ ∃ e, PointsTo 4294967298 s' e := by
  refine ⟨by decide +kernel,by decide,_,_,rfl,by decide +kernel,?_⟩
  rintro ⟨e,he⟩
  have hleader : (wideFollower.followLeader 4294967298 0).getCurrentLeader 0 =
      some ⟨2,[],5002,0,0,true⟩ := by decide +kernel
  have hsame := congrArg PaxosNodeDescriptor.nodeId
    (Option.some.inj (hleader.symm.trans (he.lookup 0)))
  exact absurd (hsame.trans he.nodeId) (by decide)

/-- An id within the range, at the promoted node and at a follower. -/
theorem leaderIdentity_iff_two :
    (acceptsPut (KiviLeaf.trySelfPromote (fun _ _ => true) 0
      { wideReplica with nodeId := 2 }).1 = true ↔ InInt 2) ∧
    ∃ s' packets, wideFollower.handleMessage (fun _ _ => true) ⟨0,0⟩ .stored
        (.localSyncSelfPromotion ⟨2,0⟩) = .ok (s',packets) ∧
      ((∃ e, PointsTo 2 s' e) ↔ InInt 2) :=
  ⟨(leaderIdentity_iff 2).1 _ (fun _ _ => true) 0 rfl rfl (by decide +kernel),
    (leaderIdentity_iff 2).2 wideFollower (fun _ _ => true) ⟨0,0⟩ .stored 0 (by decide)⟩

end KiviLeaf
end Kivi
