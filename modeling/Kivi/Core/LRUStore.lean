import Kivi.Library.LinkedList
import Kivi.Library.RecencyCache
import Kivi.Library.Utf8

/-! The storage engine: a hash store of the values, a list of the keys in order of use
and an index from each key to its list node. -/
namespace Kivi

open RecencyCache (Assoc Op Answer)

/-- `std::unordered_map`; the order of the entries stands for its iteration order, which
no result may rely on. -/
abbrev UnorderedMap (κ ν : Type*) := Assoc κ ν

/-- `map[key]`: the mapped value, default-inserted when the key is absent. -/
def UnorderedMap.subscript {κ ν : Type*} [DecidableEq κ] (default : ν) (key : κ)
    (m : UnorderedMap κ ν) : ν × UnorderedMap κ ν :=
  match m.lookup key with
  | some v => (v,m)
  | none => (default,m.insert key default)

structure HashStore where
  kv : UnorderedMap Bytes Bytes

namespace HashStore

def put (key value : Bytes) (s : HashStore) : HashStore := ⟨s.kv.insert key value⟩

def «exists» (key : Bytes) (s : HashStore) : Bool := decide (key ∈ s.kv)

def remove (key : Bytes) (s : HashStore) : HashStore × Bool :=
  (⟨s.kv.erase key⟩,decide (key ∈ s.kv))

def get (key : Bytes) (s : HashStore) : Option Bytes := s.kv.lookup key

def getAll (s : HashStore) : UnorderedMap Bytes Bytes := s.kv

end HashStore

structure LRUStore where
  capacity : ℕ
  store : HashStore
  lruList : LinkedList Bytes
  index : UnorderedMap Bytes LinkedList.Iterator

namespace LRUStore

open LinkedList (Fault)

def new (capacity : ℕ) : LRUStore := ⟨capacity,⟨∅⟩,.empty,∅⟩

def moveToFront (key : Bytes) (s : LRUStore) : Except Fault LRUStore := do
  let (it,index) := s.index.subscript none key
  let lruList := (← s.lruList.erase it).pushFront key
  return { s with lruList, index := index.insert key lruList.begin }

def evict (s : LRUStore) : Except Fault LRUStore := do
  let lruKey ← s.lruList.back
  let lruList ← s.lruList.popBack
  return { s with lruList, index := s.index.erase lruKey, store := (s.store.remove lruKey).1 }

def makeRoom (s : LRUStore) : Except Fault LRUStore :=
  if s.lruList.size ≥ s.capacity then s.evict else .ok s

def insertNew (key value : Bytes) (s : LRUStore) : LRUStore :=
  let lruList := s.lruList.pushFront key
  { s with
    lruList
    index := s.index.insert key lruList.begin
    store := s.store.put key value }

def put (key value : Bytes) (s : LRUStore) : Except Fault LRUStore :=
  if key ∈ s.index then do
    let s ← s.moveToFront key
    return { s with store := s.store.put key value }
  else do
    let s ← s.makeRoom
    return s.insertNew key value

def get (key : Bytes) (s : LRUStore) : Except Fault (LRUStore × Option Bytes) :=
  if s.store.exists key then do
    let s ← s.moveToFront key
    return (s,s.store.get key)
  else return (s,none)

def remove (key : Bytes) (s : LRUStore) : Except Fault (LRUStore × Bool) :=
  if s.store.exists key then do
    let (it,index) := s.index.subscript none key
    let lruList ← s.lruList.erase it
    let (store,removed) := s.store.remove key
    return ({ s with lruList, index := index.erase key, store },removed)
  else return (s,false)

def getKvBatch (s : LRUStore) : UnorderedMap Bytes Bytes := s.store.getAll

/-- The loop of puts over the entries of a batch, in the order the map yields them. -/
def putEach : List (Σ _ : Bytes, Bytes) → LRUStore → Except Fault LRUStore
  | [], s => .ok s
  | e::es, s => do putEach es (← s.put e.1 e.2)

def setKvBatch (kvs : UnorderedMap Bytes Bytes) (s : LRUStore) : Except Fault LRUStore :=
  putEach kvs.entries s

def step : Op Bytes Bytes → LRUStore → Except Fault (LRUStore × Answer Bytes Bytes)
  | .put k v, s => do return (← s.put k v,.done)
  | .get k, s => do
    let (s,v) ← s.get k
    return (s,.value v)
  | .remove k, s => do
    let (s,b) ← s.remove k
    return (s,.removed b)
  | .getKvBatch, s => .ok (s,.batch s.getKvBatch.toFinmap)
  | .setKvBatch m, s => do return (← s.setKvBatch m,.done)

end LRUStore

structure KiviTree where
  engine : LRUStore

namespace KiviTree

open LinkedList (Fault)

def new (capacity : ℕ := 100) : KiviTree := ⟨.new capacity⟩

def put (key value : Bytes) (t : KiviTree) : Except Fault KiviTree := do
  return ⟨← t.engine.put key value⟩

def get (key : Bytes) (t : KiviTree) : Except Fault (KiviTree × Option Bytes) := do
  let (engine,value) ← t.engine.get key
  return (⟨engine⟩,value)

def remove (key : Bytes) (t : KiviTree) : Except Fault (KiviTree × Bool) := do
  let (engine,removed) ← t.engine.remove key
  return (⟨engine⟩,removed)

def getKvBatch (t : KiviTree) : UnorderedMap Bytes Bytes := t.engine.getKvBatch

def setKvBatch (kvs : UnorderedMap Bytes Bytes) (t : KiviTree) : Except Fault KiviTree := do
  return ⟨← t.engine.setKvBatch kvs⟩

end KiviTree
end Kivi
