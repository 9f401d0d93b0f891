import Kivi.Library.JsonReader
import Kivi.Core.LRUStore

/-! The nine message classes, their encoders and decoders, and the message factory. -/
namespace Kivi

open Bytes (ofString isUtf8)

inductive MessageType
  | prepare | promise | accept | accepted | heartBeat
  | localSyncRequest | localSyncResponse | localSyncPush | localSyncSelfPromotion
  deriving DecidableEq

namespace MessageType

def toInt : MessageType → Int32
  | .prepare => 0
  | .promise => 1
  | .accept => 2
  | .accepted => 3
  | .heartBeat => 4
  | .localSyncRequest => 5
  | .localSyncResponse => 6
  | .localSyncPush => 7
  | .localSyncSelfPromotion => 8

end MessageType

/-- What a decoder throws: an exception of the JSON library or its own. -/
inductive DecodeError
  | json (e : Json.Error)
  | unknownMessageType
  deriving DecidableEq

namespace Json

def ofInt64 (n : Int64) : Json := .integer n.toInt

def ofInt32 (n : Int32) : Json := .integer n.toInt

def ofStrings (xs : List Bytes) : Json := .array (xs.map .string)

/-- An `unordered_map` of strings is stored as an object, member by member. -/
def ofStringMap (m : UnorderedMap Bytes Bytes) : Json :=
  ofFields (m.entries.map fun e => (e.1,.string e.2))

def toStringMap (es : List (Bytes × Bytes)) : UnorderedMap Bytes Bytes :=
  es.foldl (fun m e => m.insert e.1 e.2) ∅

end Json

open Json (ofFields ofInt64 ofInt32 ofStrings ofStringMap toStringMap)

structure PrepareMessage where
  proposerId : Int64
  proposalNumber : Int64
  keys : List Bytes
  timestamp : Int64

structure PromiseMessage where
  proposerId : Int64
  proposalNumber : Int64
  keys : List Bytes
  timestamp : Int64

structure AcceptMessage where
  proposerId : Int64
  proposalNumber : Int64
  kvBatch : UnorderedMap Bytes Bytes
  timestamp : Int64

structure AcceptedMessage where
  proposerId : Int64
  proposalNumber : Int64
  kvBatch : UnorderedMap Bytes Bytes
  timestamp : Int64

structure HeartBeatMessage where
  nodeId : Int64
  nodeIp : Bytes
  nodePort : Int32
  lastSeen : Int64
  clusterType : Int32
  deriving DecidableEq

structure LocalSyncRequestMessage where
  followerNodeId : Int64
  lastSyncTimestamp : Int64
  deriving DecidableEq

/-- Key, value and timestamp of each update. -/
structure LocalSyncPayload where
  updates : List (Bytes × Bytes × Int64)
  deriving DecidableEq

structure LocalSyncResponseMessage where
  leaderNodeId : Int64
  followerNodeId : Int64
  lastSyncTimestamp : Int64
  latestSyncTimestamp : Int64
  payload : LocalSyncPayload
  deriving DecidableEq

structure LocalSyncPushMessage where
  leaderNodeId : Int64
  latestSyncTimestamp : Int64
  key : Bytes
  value : Bytes
  deriving DecidableEq

structure LocalSyncSelfPromotionMessage where
  leaderNodeId : Int64
  promotionTimestamp : Int64
  deriving DecidableEq

/-- The members shared by the four proposal messages; they differ in the tag and in the
name and kind of the batch. -/
def proposalFields (type : MessageType) (batch : Bytes × Json)
    (proposerId proposalNumber timestamp : Int64) : Json.Fields :=
  [(ofString "type",ofInt32 type.toInt),batch,
    (ofString "proposal_number",ofInt64 proposalNumber),
    (ofString "proposer_id",ofInt64 proposerId),(ofString "timestamp",ofInt64 timestamp)]

namespace PrepareMessage

def toJson (m : PrepareMessage) : Json :=
  ofFields (proposalFields .prepare (ofString "keys",ofStrings m.keys)
    m.proposerId m.proposalNumber m.timestamp)

def ofJson (j : Json) : Except Json.Error PrepareMessage := do
  return {
    proposerId := ← (← j.atKey (ofString "proposer_id")).getInt64
    proposalNumber := ← (← j.atKey (ofString "proposal_number")).getInt64
    keys := ← (← j.atKey (ofString "keys")).getStringArray
    timestamp := ← (← j.atKey (ofString "timestamp")).getInt64 }

end PrepareMessage

namespace PromiseMessage

def toJson (m : PromiseMessage) : Json :=
  ofFields (proposalFields .promise (ofString "keys",ofStrings m.keys)
    m.proposerId m.proposalNumber m.timestamp)

def ofJson (j : Json) : Except Json.Error PromiseMessage := do
  return {
    proposerId := ← (← j.atKey (ofString "proposer_id")).getInt64
    proposalNumber := ← (← j.atKey (ofString "proposal_number")).getInt64
    keys := ← (← j.atKey (ofString "keys")).getStringArray
    timestamp := ← (← j.atKey (ofString "timestamp")).getInt64 }

end PromiseMessage

namespace AcceptMessage

def toJson (m : AcceptMessage) : Json :=
  ofFields (proposalFields .accept (ofString "kv_batch",ofStringMap m.kvBatch)
    m.proposerId m.proposalNumber m.timestamp)

def ofJson (j : Json) : Except Json.Error AcceptMessage := do
  return {
    proposerId := ← (← j.atKey (ofString "proposer_id")).getInt64
    proposalNumber := ← (← j.atKey (ofString "proposal_number")).getInt64
    kvBatch := toStringMap (← (← j.atKey (ofString "kv_batch")).getStringMap)
    timestamp := ← (← j.atKey (ofString "timestamp")).getInt64 }

end AcceptMessage

namespace AcceptedMessage

def toJson (m : AcceptedMessage) : Json :=
  ofFields (proposalFields .accepted (ofString "kv_batch",ofStringMap m.kvBatch)
    m.proposerId m.proposalNumber m.timestamp)

def ofJson (j : Json) : Except Json.Error AcceptedMessage := do
  return {
    proposerId := ← (← j.atKey (ofString "proposer_id")).getInt64
    proposalNumber := ← (← j.atKey (ofString "proposal_number")).getInt64
    kvBatch := toStringMap (← (← j.atKey (ofString "kv_batch")).getStringMap)
    timestamp := ← (← j.atKey (ofString "timestamp")).getInt64 }

end AcceptedMessage

namespace HeartBeatMessage

def toJson (m : HeartBeatMessage) : Json :=
  ofFields [(ofString "type",ofInt32 MessageType.heartBeat.toInt),
    (ofString "node_id",ofInt64 m.nodeId),(ofString "node_ip",.string m.nodeIp),
    (ofString "node_port",ofInt32 m.nodePort),(ofString "last_seen",ofInt64 m.lastSeen),
    (ofString "cluster_type",ofInt32 m.clusterType)]

def ofJson (j : Json) : Except Json.Error HeartBeatMessage := do
  return {
    nodeId := ← (← j.atKey (ofString "node_id")).getInt64
    nodeIp := ← (← j.atKey (ofString "node_ip")).getString
    nodePort := ← (← j.atKey (ofString "node_port")).getInt32
    lastSeen := ← (← j.atKey (ofString "last_seen")).getInt64
    clusterType := ← (← j.atKey (ofString "cluster_type")).getInt32 }

end HeartBeatMessage

namespace LocalSyncRequestMessage

def toJson (m : LocalSyncRequestMessage) : Json :=
  ofFields [(ofString "type",ofInt32 MessageType.localSyncRequest.toInt),
    (ofString "follower_node_id",ofInt64 m.followerNodeId),
    (ofString "last_sync_timestamp",ofInt64 m.lastSyncTimestamp)]

def ofJson (j : Json) : Except Json.Error LocalSyncRequestMessage := do
  return {
    followerNodeId := ← (← j.atKey (ofString "follower_node_id")).getInt64
    lastSyncTimestamp := ← (← j.atKey (ofString "last_sync_timestamp")).getInt64 }

end LocalSyncRequestMessage

namespace LocalSyncPayload

def itemToJson (u : Bytes × Bytes × Int64) : Json :=
  ofFields [(ofString "key",.string u.1),(ofString "value",.string u.2.1),
    (ofString "timestamp",ofInt64 u.2.2)]

/-- The document starts as null and becomes an array at the first `push_back`. -/
def toJson (p : LocalSyncPayload) : Json :=
  match p.updates with
  | [] => .null
  | us => .array (us.map itemToJson)

def dump (p : LocalSyncPayload) : Except Json.Error Bytes := p.toJson.dump

def itemOfJson (j : Json) : Except Json.Error (Bytes × Bytes × Int64) := do
  return (← (← j.atKey (ofString "key")).getString,← (← j.atKey (ofString "value")).getString,
    ← (← j.atKey (ofString "timestamp")).getInt64)

def load (parser : Json.Parser) (serialized : Bytes) : Except Json.Error LocalSyncPayload := do
  return ⟨← (← parser.parse serialized).elements.mapM itemOfJson⟩

def getPayload (p : LocalSyncPayload) : UnorderedMap Bytes Bytes :=
  p.updates.foldl (fun m u => m.insert u.1 u.2.1) ∅

/-- The updates come in the order the map is iterated in. -/
def loadFromMap (nowMs : Int64) (data : UnorderedMap Bytes Bytes) : LocalSyncPayload :=
  ⟨data.entries.map fun e => (e.1,e.2,nowMs)⟩

end LocalSyncPayload

namespace LocalSyncResponseMessage

def toJson (m : LocalSyncResponseMessage) : Except Json.Error Json := do
  return ofFields [(ofString "type",ofInt32 MessageType.localSyncResponse.toInt),
    (ofString "leader_node_id",ofInt64 m.leaderNodeId),
    (ofString "follower_node_id",ofInt64 m.followerNodeId),
    (ofString "last_sync_timestamp",ofInt64 m.lastSyncTimestamp),
    (ofString "latest_sync_timestamp",ofInt64 m.latestSyncTimestamp),
    (ofString "payload",.string (← m.payload.dump))]

def ofJson (parser : Json.Parser) (j : Json) : Except Json.Error LocalSyncResponseMessage := do
  let payload ← LocalSyncPayload.load parser (← (← j.atKey (ofString "payload")).getString)
  return {
    leaderNodeId := ← (← j.atKey (ofString "leader_node_id")).getInt64
    followerNodeId := ← (← j.atKey (ofString "follower_node_id")).getInt64
    lastSyncTimestamp := ← (← j.atKey (ofString "last_sync_timestamp")).getInt64
    latestSyncTimestamp := ← (← j.atKey (ofString "latest_sync_timestamp")).getInt64
    payload }

end LocalSyncResponseMessage

namespace LocalSyncPushMessage

def toJson (m : LocalSyncPushMessage) : Json :=
  ofFields [(ofString "type",ofInt32 MessageType.localSyncPush.toInt),
    (ofString "leader_node_id",ofInt64 m.leaderNodeId),
    (ofString "latest_sync_timestamp",ofInt64 m.latestSyncTimestamp),
    (ofString "key",.string m.key),(ofString "value",.string m.value)]

def ofJson (j : Json) : Except Json.Error LocalSyncPushMessage := do
  return {
    leaderNodeId := ← (← j.atKey (ofString "leader_node_id")).getInt64
    latestSyncTimestamp := ← (← j.atKey (ofString "latest_sync_timestamp")).getInt64
    key := ← (← j.atKey (ofString "key")).getString
    value := ← (← j.atKey (ofString "value")).getString }

end LocalSyncPushMessage

namespace LocalSyncSelfPromotionMessage

def toJson (m : LocalSyncSelfPromotionMessage) : Json :=
  ofFields [(ofString "type",ofInt32 MessageType.localSyncSelfPromotion.toInt),
    (ofString "leader_node_id",ofInt64 m.leaderNodeId),
    (ofString "promotion_timestamp",ofInt64 m.promotionTimestamp)]

def ofJson (j : Json) : Except Json.Error LocalSyncSelfPromotionMessage := do
  return {
    leaderNodeId := ← (← j.atKey (ofString "leader_node_id")).getInt64
    promotionTimestamp := ← (← j.atKey (ofString "promotion_timestamp")).getInt64 }

end LocalSyncSelfPromotionMessage

inductive Message
  | prepare (m : PrepareMessage)
  | promise (m : PromiseMessage)
  | accept (m : AcceptMessage)
  | accepted (m : AcceptedMessage)
  | heartBeat (m : HeartBeatMessage)
  | localSyncRequest (m : LocalSyncRequestMessage)
  | localSyncResponse (m : LocalSyncResponseMessage)
  | localSyncPush (m : LocalSyncPushMessage)
  | localSyncSelfPromotion (m : LocalSyncSelfPromotionMessage)

namespace Message

def getMessageType : Message → MessageType
  | .prepare _ => .prepare
  | .promise _ => .promise
  | .accept _ => .accept
  | .accepted _ => .accepted
  | .heartBeat _ => .heartBeat
  | .localSyncRequest _ => .localSyncRequest
  | .localSyncResponse _ => .localSyncResponse
  | .localSyncPush _ => .localSyncPush
  | .localSyncSelfPromotion _ => .localSyncSelfPromotion

def toJson : Message → Except Json.Error Json
  | .prepare m => .ok m.toJson
  | .promise m => .ok m.toJson
  | .accept m => .ok m.toJson
  | .accepted m => .ok m.toJson
  | .heartBeat m => .ok m.toJson
  | .localSyncRequest m => .ok m.toJson
  | .localSyncResponse m => m.toJson
  | .localSyncPush m => .ok m.toJson
  | .localSyncSelfPromotion m => .ok m.toJson

def serialize (m : Message) : Except Json.Error Bytes := do (← m.toJson).dump

end Message

namespace MessageFactory

def deserialize (parser : Json.Parser) (type : Int32) (j : Json) : Except DecodeError Message :=
  if type = MessageType.heartBeat.toInt then
    (HeartBeatMessage.ofJson j).map .heartBeat |>.mapError .json
  else if type = MessageType.prepare.toInt then
    (PrepareMessage.ofJson j).map .prepare |>.mapError .json
  else if type = MessageType.promise.toInt then
    (PromiseMessage.ofJson j).map .promise |>.mapError .json
  else if type = MessageType.accept.toInt then
    (AcceptMessage.ofJson j).map .accept |>.mapError .json
  else if type = MessageType.accepted.toInt then
    (AcceptedMessage.ofJson j).map .accepted |>.mapError .json
  else if type = MessageType.localSyncRequest.toInt then
    (LocalSyncRequestMessage.ofJson j).map .localSyncRequest |>.mapError .json
  else if type = MessageType.localSyncResponse.toInt then
    (LocalSyncResponseMessage.ofJson parser j).map .localSyncResponse |>.mapError .json
  else if type = MessageType.localSyncPush.toInt then
    (LocalSyncPushMessage.ofJson j).map .localSyncPush |>.mapError .json
  else if type = MessageType.localSyncSelfPromotion.toInt then
    (LocalSyncSelfPromotionMessage.ofJson j).map .localSyncSelfPromotion |>.mapError .json
  else .error .unknownMessageType

/-- Parse the text, then decode by its tag; each decoder parses the same text again. -/
def fromJson (parser : Json.Parser) (jsonStr : Bytes) : Except DecodeError Message := do
  let j ← (parser.parse jsonStr).mapError .json
  let type ← (do (← j.atKey (ofString "type")).getInt32 : Except Json.Error Int32).mapError .json
  deserialize parser type j

end MessageFactory
end Kivi
