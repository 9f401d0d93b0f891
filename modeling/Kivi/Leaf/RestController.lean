import Kivi.Leaf.KiviLeaf
import Kivi.Library.JsonPretty

/-! The REST handlers of a leaf. -/
namespace Kivi

open Bytes (ofString)
open LinkedList (Fault)

/-! The `fields` of the HTTP library. -/
namespace Fields

def isVchar (c : UInt8) : Bool := decide (33 ≤ c ∧ c ≤ 126)
def isObsText (c : UInt8) : Bool := decide (128 ≤ c)
def isFieldVchar (c : UInt8) : Bool := isVchar c || isObsText c

def isInner (c : UInt8) : Bool := c == 0x20 || c == 0x09 || isFieldVchar c

def isFieldContent : Bytes → Bool
  | [] => true
  | [c] => isFieldVchar c
  | [c,d] => isFieldVchar c && isFieldVchar d
  | c::d::e::s => isFieldVchar c && (d::e::s).dropLast.all isInner &&
      isFieldVchar ((d::e::s).getLast (by simp))

def isFieldValue (s : Bytes) : Bool := isFieldContent s

theorem isInner_of_vchar {c : UInt8} (h : isFieldVchar c = true) : isInner c = true := by
  simp [isInner,h]

theorem isFieldValue_ends (c d : UInt8) (s : Bytes) : isFieldValue (c::(s ++ [d])) =
    (isFieldVchar c && s.all isInner && isFieldVchar d) := by
  cases s with
  | nil => simp [isFieldValue,isFieldContent]
  | cons e s =>
    cases s with
    | nil => simp [isFieldValue,isFieldContent]
    | cons e' s =>
      have hlong : isFieldValue (c::(e::e'::s ++ [d])) = (isFieldVchar c &&
          ((e::e'::s) ++ [d]).dropLast.all isInner &&
          isFieldVchar (((e::e'::s) ++ [d]).getLast (by simp))) := rfl
      rw [hlong,List.dropLast_concat,List.getLast_concat]

end Fields

/-- The status, the `Location` header and the document sent as content; an exception that
leaves the handler is answered with status 500 and no content. -/
structure Response where
  status : ℕ
  location : Option Bytes
  content : Option Json

namespace Response

def internalServerError : Response := ⟨500,none,none⟩

/-- `set_header("Location", val)`, which drops a value that is no field value. -/
def header (val : Bytes) : Option Bytes := if Fields.isFieldValue val then some val else none

/-- Set the content to the text of a document, which throws on a malformed string. -/
def ofContent (status : ℕ) (j : Json) : Response :=
  match j.dump with
  | .ok _ => ⟨status,none,some j⟩
  | .error _ => internalServerError

def ofError (status : ℕ) (text : String) : Response :=
  ofContent status (.ofFields [(ofString "error",.string (ofString text))])

end Response

def PaxosNodeDescriptor.toJson (n : PaxosNodeDescriptor) : Json :=
  .ofFields [(ofString "node_id",.ofInt64 n.nodeId),(ofString "node_ip",.string n.nodeIp),
    (ofString "node_port",.ofInt32 n.nodePort),(ofString "last_seen",.ofInt64 n.lastSeen),
    (ofString "last_sync",.ofInt64 n.lastSync),(ofString "is_alive",.boolean n.isAlive)]

/-- The status and the text of a page; an exception of `dump` is answered with status 500. -/
structure Page where
  status : ℕ
  text : Option Bytes

def Page.ofContent (j : Json) : Page :=
  match j.dumpIndented 4 with
  | .ok text => ⟨200,some text⟩
  | .error _ => ⟨500,none⟩

namespace RestController

def clusterStatus (s : KiviLeaf) : Page :=
  .ofContent (.array (s.localClusterNodes.map PaxosNodeDescriptor.toJson))

def print (s : KiviLeaf) : Page := .ofContent (.ofStringMap s.kivi.getKvBatch)

/-- `GET /get`; the key is absent when the request has no such parameter. -/
def get (key : Option Bytes) (s : KiviLeaf) : Except Fault (KiviLeaf × Response) :=
  match key with
  | none => return (s,.ofError 400 "Missing 'key' parameter")
  | some key => do
    let (kivi,valOpt) ← s.kivi.get key
    let s := { s with kivi }
    match valOpt with
    | some value => return (s,.ofContent 200
        (.ofFields [(ofString "key",.string key),(ofString "value",.string value)]))
    | none => return (s,.ofError 404 "Key not found")

/-- `http://ip:port/put` of the leader, one thousand ports above its message port. -/
def redirectUrl (leader : PaxosNodeDescriptor) : Bytes :=
  ofString "http://" ++ leader.nodeIp ++ ofString ":" ++
    Json.writeInteger (leader.nodePort+1000).toInt ++ ofString "/put"

/-- The answer of a node that is not the leader. An exception of `dump` is caught after the
header has been set. -/
def redirect (s : KiviLeaf) : Response :=
  match s.getCurrentLeader 0 with
  | none => .ofError 503 "Leader not available"
  | some leader =>
    let url := redirectUrl leader
    let content := Json.ofFields [(ofString "error",.string (ofString "This node is not the leader")),
      (ofString "redirect_to",.string url)]
    match content.dump with
    | .ok _ => ⟨307,Response.header url,some content⟩
    | .error _ => { Response.ofError 503 "Leader not available" with
        location := Response.header url }

def acceptsPut (s : KiviLeaf) : Bool := decide (s.nodeId = s.currentLeaderId.toInt64)

/-- `PUT /put`; an absent parameter reads as the empty string. The value is stored before it
is pushed. -/
def put (up : Reachability) (now : Int64) (key value : Bytes) (s : KiviLeaf) :
    Except Fault (KiviLeaf × List Packet × Response) :=
  if ¬ acceptsPut s then return (s,[],redirect s)
  else if key = [] ∨ value = [] then
    return (s,[],.ofError 400 "Missing 'key' or 'value' parameter")
  else do
    let kivi ← s.kivi.put key value
    let s := { s with kivi }
    let result := Json.ofFields [(ofString "status",.string (ofString "OK")),
      (ofString "key",.string key)]
    let push := s.pushToFollowers up now key value
    match push.thrown with
    | some _ => return (s,push.packets,.internalServerError)
    | none => return (s,push.packets,.ofContent 200 result)

end RestController
end Kivi
