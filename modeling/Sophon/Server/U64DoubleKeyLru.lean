/-
The server's LRU map with a key and a short key (`server/libs/hmap/lru/u64_lru_double_key.go`).

It is `U64LRU` with a second hash table.  Every node also holds a short key and
lies on the collision chain of its short key's slot in `relationHashSlotHead`, the
relation chain, besides the chain of its key's slot in `hashSlotHead` and the time
list.  Several keys share a short key: `AddByShortKey` adds them under it,
`PeekByShortKey` reads their values and `RemoveByShortKey` removes them, walking the
relation chain of the short key.  Since `removeNode` fills the freed cell with the
segment's first node, the cell the walk was to visit next may be the one that moves
into the freed cell: `removeNode` returns the freed cell then, and `-1` otherwise.

The model flattens the ring as `U64Lru` does, and leaves out the same things: the
allocated blocks and their pool, the counter and the collision-chain debug copy.
The `int32` indices are naturals, as in `U64Lru`.  The helpers of the two hash tables differ only in the
links, heads and hash they use: each pair is one helper over the `HashTable` it
edits, and the Go helpers are it at their table.  A loop along a chain is bounded by
the number of slots of the ring, and `RemoveByShortKey` by as many turns, more than
any chain of distinct cells needs; the loop that runs out is `none`.
-/
import Sophon.Server.U64Lru
import Sophon.Lib.LruDoubleKey
import Sophon.Lib.Loop

namespace Sophon.Server

variable {V : Type}

/-- `u64DoubleKeyLRUNode`. -/
structure U64DoubleKeyLRUNode (V : Type) where
  key : UInt64
  shortKey : UInt64
  value : Option V
  hashListNext : Int
  hashListPrev : Int
  relationHashListNext : Int
  relationHashListPrev : Int
  timeListNext : Int
  timeListPrev : Int

/-- `blankU64DoubleKeyLRUNodeForInit`, Go's zero node. -/
def blankU64DoubleKeyLRUNodeForInit : U64DoubleKeyLRUNode V := ⟨0, 0, none, 0, 0, 0, 0, 0, 0⟩

/-- `U64DoubleKeyLRU` without its statistics and debug fields. -/
structure U64DoubleKeyLRU (V : Type) where
  ringBuffer : Nat → U64DoubleKeyLRUNode V
  ringBufferLen : Nat
  bufferStartIndex : Nat
  bufferEndIndex : Nat
  hashSlots : Nat
  hashSlotHead : Nat → Int
  relationHashSlots : Nat
  relationHashSlotHead : Nat → Int
  timeListHead : Int
  timeListTail : Int
  capacity : Nat
  size : Nat

/-- The two hash tables: of the keys, and of the short keys (the relation chains). -/
inductive HashTable
  | hash
  | relation
  deriving DecidableEq

namespace HashTable

/-- The link to the next node on the table's chain. -/
def next : HashTable → U64DoubleKeyLRUNode V → Int
  | .hash, n => n.hashListNext
  | .relation, n => n.relationHashListNext

/-- The link to the previous node on the table's chain. -/
def prev : HashTable → U64DoubleKeyLRUNode V → Int
  | .hash, n => n.hashListPrev
  | .relation, n => n.relationHashListPrev

def setNext : HashTable → U64DoubleKeyLRUNode V → Int → U64DoubleKeyLRUNode V
  | .hash, n, v => { n with hashListNext := v }
  | .relation, n, v => { n with relationHashListNext := v }

def setPrev : HashTable → U64DoubleKeyLRUNode V → Int → U64DoubleKeyLRUNode V
  | .hash, n, v => { n with hashListPrev := v }
  | .relation, n, v => { n with relationHashListPrev := v }

/-- The key a node is hashed by in the table. -/
def key : HashTable → U64DoubleKeyLRUNode V → UInt64
  | .hash, n => n.key
  | .relation, n => n.shortKey

end HashTable

namespace U64DoubleKeyLRU

/-- `compressHash`: the `int32` hash masked to the slots, a power of two. -/
def compressHash (m : U64DoubleKeyLRU V) (hash : UInt64) : Nat :=
  (jenkins hash).toNat % 2 ^ 32 &&& (m.hashSlots - 1)

/-- `compressRelationHash`: the same, masked to the relation slots. -/
def compressRelationHash (m : U64DoubleKeyLRU V) (hash : UInt64) : Nat :=
  (jenkins hash).toNat % 2 ^ 32 &&& (m.relationHashSlots - 1)

/-- The slot heads of a table. -/
def slotHead (m : U64DoubleKeyLRU V) : HashTable → Nat → Int
  | .hash => m.hashSlotHead
  | .relation => m.relationHashSlotHead

/-- The write `slotHead[hash] = v` into a table. -/
def setSlotHead (m : U64DoubleKeyLRU V) : HashTable → Nat → Int → U64DoubleKeyLRU V
  | .hash, hash, v => { m with hashSlotHead := Function.update m.hashSlotHead hash v }
  | .relation, hash, v =>
      { m with relationHashSlotHead := Function.update m.relationHashSlotHead hash v }

/-- The slot function of a table. -/
def compress (m : U64DoubleKeyLRU V) : HashTable → UInt64 → Nat
  | .hash => m.compressHash
  | .relation => m.compressRelationHash

def incIndex (m : U64DoubleKeyLRU V) (index : Nat) : Nat :=
  let index := index + 1
  if index >>> 8 ≥ m.ringBufferLen then 0 else index

def getNode (m : U64DoubleKeyLRU V) (index : Nat) : U64DoubleKeyLRUNode V := m.ringBuffer index

/-- A write through the pointer `getNode(index)` returns. -/
def setNode (m : U64DoubleKeyLRU V) (index : Nat) (node : U64DoubleKeyLRUNode V) :
    U64DoubleKeyLRU V :=
  { m with ringBuffer := Function.update m.ringBuffer index node }

/-- `pushNodeToHashList` and `pushNodeToRelationHashList`, on the table `t`. -/
def pushNodeToList (m : U64DoubleKeyLRU V) (t : HashTable) (nodeIndex hash : Nat) :
    U64DoubleKeyLRU V :=
  let next := m.slotHead t hash
  let m := m.setNode nodeIndex (t.setPrev (t.setNext (m.getNode nodeIndex) next) (-1))
  let m := if next ≠ -1 then m.setNode next.toNat (t.setPrev (m.getNode next.toNat) nodeIndex)
    else m
  m.setSlotHead t hash nodeIndex

def pushNodeToHashList (m : U64DoubleKeyLRU V) (nodeIndex hash : Nat) : U64DoubleKeyLRU V :=
  m.pushNodeToList .hash nodeIndex hash

def pushNodeToRelationHashList (m : U64DoubleKeyLRU V) (nodeIndex hash : Nat) :
    U64DoubleKeyLRU V :=
  m.pushNodeToList .relation nodeIndex hash

def pushNodeToTimeList (m : U64DoubleKeyLRU V) (nodeIndex : Nat) : U64DoubleKeyLRU V :=
  let next := m.timeListHead
  let m := m.setNode nodeIndex { m.getNode nodeIndex with timeListNext := next, timeListPrev := -1 }
  let m := if next ≠ -1 then
      m.setNode next.toNat { m.getNode next.toNat with timeListPrev := nodeIndex }
    else m
  let m := { m with timeListHead := nodeIndex }
  if m.timeListTail = -1 then { m with timeListTail := nodeIndex } else m

/-- `removeNodeFromHashList` and `removeNodeFromRelationHashList`, on the table `t`. -/
def removeNodeFromList (m : U64DoubleKeyLRU V) (t : HashTable) (node : U64DoubleKeyLRUNode V)
    (newNext newPrev : Int) : U64DoubleKeyLRU V :=
  let m := if t.prev node ≠ -1 then
      m.setNode (t.prev node).toNat (t.setNext (m.getNode (t.prev node).toNat) newNext)
    else m.setSlotHead t (m.compress t (t.key node)) newNext
  if t.next node ≠ -1 then
    m.setNode (t.next node).toNat (t.setPrev (m.getNode (t.next node).toNat) newPrev)
  else m

def removeNodeFromHashList (m : U64DoubleKeyLRU V) (node : U64DoubleKeyLRUNode V)
    (newNext newPrev : Int) : U64DoubleKeyLRU V :=
  m.removeNodeFromList .hash node newNext newPrev

def removeNodeFromRelationHashList (m : U64DoubleKeyLRU V) (node : U64DoubleKeyLRUNode V)
    (newNext newPrev : Int) : U64DoubleKeyLRU V :=
  m.removeNodeFromList .relation node newNext newPrev

def removeNodeFromTimeList (m : U64DoubleKeyLRU V) (node : U64DoubleKeyLRUNode V)
    (newNext newPrev : Int) : U64DoubleKeyLRU V :=
  let m := if node.timeListPrev ≠ -1 then
      m.setNode node.timeListPrev.toNat
        { m.getNode node.timeListPrev.toNat with timeListNext := newNext }
    else { m with timeListHead := newNext }
  if node.timeListNext ≠ -1 then
    m.setNode node.timeListNext.toNat
      { m.getNode node.timeListNext.toNat with timeListPrev := newPrev }
  else { m with timeListTail := newPrev }

/-- `removeNode`: unlink the node from its three lists, move the segment's first node
into its cell, and let the segment start one cell later.  It returns the node's cell
when the node's next on its relation chain was the segment's first node, which now
sits in that cell, and `-1` otherwise. -/
def removeNode (m : U64DoubleKeyLRU V) (nodeIndex : Nat) : Int × U64DoubleKeyLRU V :=
  let node := m.getNode nodeIndex
  let m := m.removeNodeFromHashList node node.hashListNext node.hashListPrev
  let m := m.removeNodeFromRelationHashList node node.relationHashListNext node.relationHashListPrev
  let m := m.removeNodeFromTimeList node node.timeListNext node.timeListPrev
  let removeNodeNext := node.relationHashListNext
  let bufferStartIndex := m.bufferStartIndex
  let m :=
    if nodeIndex ≠ m.bufferStartIndex then
      let firstNode := m.getNode m.bufferStartIndex
      let m := m.setNode nodeIndex firstNode
      let m := m.removeNodeFromHashList firstNode nodeIndex nodeIndex
      let m := m.removeNodeFromRelationHashList firstNode nodeIndex nodeIndex
      let m := m.removeNodeFromTimeList firstNode nodeIndex nodeIndex
      m.setNode m.bufferStartIndex blankU64DoubleKeyLRUNodeForInit
    else m.setNode nodeIndex blankU64DoubleKeyLRUNodeForInit
  let m := { m with bufferStartIndex := m.incIndex m.bufferStartIndex, size := m.size - 1 }
  (if removeNodeNext = bufferStartIndex then (nodeIndex : Int) else -1, m)

def updateNode (m : U64DoubleKeyLRU V) (nodeIndex : Nat) (value : Option V) : U64DoubleKeyLRU V :=
  let m :=
    if (nodeIndex : Int) ≠ m.timeListHead then
      let node := m.getNode nodeIndex
      let m := m.removeNodeFromTimeList node node.timeListNext node.timeListPrev
      m.pushNodeToTimeList nodeIndex
    else m
  m.setNode nodeIndex { m.getNode nodeIndex with value := value }

/-- `newNode`: evict the least recently used node when full, then put the new node
at the end of the segment and at the front of its two chains and of the time list. -/
def newNode (m : U64DoubleKeyLRU V) (key shortKey : UInt64) (value : Option V) :
    U64DoubleKeyLRU V :=
  let m := if m.size ≥ m.capacity then (m.removeNode m.timeListTail.toNat).2 else m
  let index := m.bufferEndIndex
  let m := { m with size := m.size + 1 }
  let m := m.pushNodeToHashList index (m.compressHash key)
  let m := m.pushNodeToRelationHashList index (m.compressRelationHash shortKey)
  let m := m.pushNodeToTimeList index
  let m := m.setNode index { m.getNode index with key := key, shortKey := shortKey, value := value }
  { m with bufferEndIndex := m.incIndex index }

/-- The number of slots of the ring, which bounds the loops along a list. -/
def slots (m : U64DoubleKeyLRU V) : Nat := m.ringBufferLen * 256

/-- `find`: the first node of the key's collision chain that holds the key. -/
def find (m : U64DoubleKeyLRU V) (key : UInt64) : Option Nat :=
  (LinkList.walk (fun i => (m.getNode i).hashListNext) m.slots
    (m.hashSlotHead (m.compressHash key))).find? fun i => (m.getNode i).key == key

/-- `Add`: a key the map holds keeps its short key. -/
def add (m : U64DoubleKeyLRU V) (key shortKey : UInt64) (value : Option V) : U64DoubleKeyLRU V :=
  match m.find key with
  | some index => m.updateNode index value
  | none => m.newNode key shortKey value

def addByShortKey (m : U64DoubleKeyLRU V) (keys : List UInt64) (shortKey : UInt64)
    (values : List (Option V)) : U64DoubleKeyLRU V :=
  if keys.length ≠ values.length then m
  else (keys.zip values).foldl (fun m kv => m.add kv.1 shortKey kv.2) m

/-- `Remove`: its loop is `find`'s. -/
def remove (m : U64DoubleKeyLRU V) (key : UInt64) : U64DoubleKeyLRU V :=
  match m.find key with
  | some index => (m.removeNode index).2
  | none => m

/-- One turn of the loop of `RemoveByShortKey`, at the link `relationHashListNext`
with `delCount` nodes removed: the loop ends at `-1`; otherwise the node is read,
its next link kept, and the node removed when it holds the short key, the walk
going on from the cell `removeNode` returns when that is not `-1`. -/
def removeByShortKeyTurn (key : UInt64) :
    Int × Nat × U64DoubleKeyLRU V → Option (Nat × U64DoubleKeyLRU V) ⊕ (Int × Nat × U64DoubleKeyLRU V)
  | (relationHashListNext, delCount, m) =>
    if relationHashListNext = -1 then .inl (some (delCount, m))
    else
      let bakHashListNext := relationHashListNext.toNat
      let node := m.getNode bakHashListNext
      let relationHashListNext := node.relationHashListNext
      if node.shortKey = key then
        let (nextNodeIndex, m) := m.removeNode bakHashListNext
        .inr (if nextNodeIndex ≠ -1 then nextNodeIndex else relationHashListNext, delCount + 1, m)
      else .inr (relationHashListNext, delCount, m)

/-- `RemoveByShortKey`: how many nodes it removed, and the map after. -/
def removeByShortKey (m : U64DoubleKeyLRU V) (key : UInt64) : Option (Nat × U64DoubleKeyLRU V) :=
  Loop.whileFuel (removeByShortKeyTurn key) none m.slots
    (m.relationHashSlotHead (m.compressRelationHash key), 0, m)

def get (m : U64DoubleKeyLRU V) (key : UInt64) (peek : Bool) : (Option V × Bool) × U64DoubleKeyLRU V :=
  match m.find key with
  | some index =>
      let value := (m.getNode index).value
      ((value, true), if peek then m else m.updateNode index value)
  | none => ((none, false), m)

/-- `Walk`: the keys and values along the time list, in the order of the callbacks. -/
def walk (m : U64DoubleKeyLRU V) : List (UInt64 × Option V) :=
  (LinkList.walk (fun i => (m.getNode i).timeListNext) m.slots m.timeListHead).map fun i =>
    ((m.getNode i).key, (m.getNode i).value)

def clear (m : U64DoubleKeyLRU V) : U64DoubleKeyLRU V :=
  { m with
    ringBuffer := fun i => { m.ringBuffer i with value := none }
    bufferStartIndex := 0
    bufferEndIndex := 0
    hashSlotHead := fun _ => -1
    relationHashSlotHead := fun _ => -1
    timeListHead := -1
    timeListTail := -1
    size := 0 }

end U64DoubleKeyLRU

namespace U64DoubleKeyLRU

/-- One call on the map, under the names of `Lru.DoubleKey.Op`.  A `RemoveByShortKey`
whose walk ran out of turns would leave the map as it was. -/
def call (m : U64DoubleKeyLRU V) : Lru.DoubleKey.Op UInt64 UInt64 (Option V) → U64DoubleKeyLRU V
  | .add k s v => m.add k s v
  | .addByShortKey ks s vs => m.addByShortKey ks s vs
  | .get k peek => (m.get k peek).2
  | .remove k => m.remove k
  | .removeByShortKey s => ((m.removeByShortKey s).map Prod.snd).getD m
  | .clear => m.clear

/-- The map after a run of calls. -/
def run (m : U64DoubleKeyLRU V) (ops : List (Lru.DoubleKey.Op UInt64 UInt64 (Option V))) :
    U64DoubleKeyLRU V :=
  ops.foldl call m

end U64DoubleKeyLRU

end Sophon.Server
