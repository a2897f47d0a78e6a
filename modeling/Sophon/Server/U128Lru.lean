/-
The server's LRU map with 128-bit keys (`server/libs/hmap/lru/u128_lru.go`, with
`keyhash.Jenkins128`).

`U128LRU` keeps its nodes as `U64LRU` does: a ring buffer of blocks of 256 nodes
whose live part is the segment from `bufferStartIndex` to `bufferEndIndex`, each
live node on the collision chain of its hash slot and on the time list, and
`removeNode` keeps the segment compact by moving the segment's first node into
the freed slot.  The file is written by hand rather than from the template of the
other maps, and differs from `U64LRU` beyond the key of two words:

  * a node keeps the slot it was pushed on (`hash`), and `removeNodeFromHashList`
    and `updateNode` read it there instead of hashing the key again;
  * `updateNode` moves a hit node to the front of its collision chain as well as
    to the front of the time list;
  * `AddOrGet` adds a key that is missing and touches one that is present,
    keeping its value.

The ring is flattened as in `U64LRU`, with its indices as naturals, and the block
pool, the statistics and the collision-chain debug copy are left out again.  `hash` is an `int32` that only
ever holds a masked hash or the blank node's `0`, so it is a `Nat` here.
-/
import Sophon.Server.U64Lru

namespace Sophon.Server

variable {V : Type}

/-- `u128LRUNode`. -/
structure U128LRUNode (V : Type) where
  key0 : UInt64
  key1 : UInt64
  value : Option V
  hashListNext : Int
  hashListPrev : Int
  timeListNext : Int
  timeListPrev : Int
  hash : Nat

/-- `blankU128LRUNodeForInit`, Go's zero node. -/
def blankU128LRUNodeForInit : U128LRUNode V := ⟨0, 0, none, 0, 0, 0, 0, 0⟩

/-- `U128LRU` without its statistics and debug fields. -/
structure U128LRU (V : Type) where
  ringBuffer : Nat → U128LRUNode V
  ringBufferLen : Nat
  bufferStartIndex : Nat
  bufferEndIndex : Nat
  hashSlots : Nat
  hashSlotHead : Nat → Int
  timeListHead : Int
  timeListTail : Int
  capacity : Nat
  size : Nat

/-- `keyhash.Jenkins128`: the `int32` hashes of the two words xored, as 32 bits. -/
def jenkins128 (key0 key1 : UInt64) : Nat :=
  (jenkins key0).toNat % 2 ^ 32 ^^^ (jenkins key1).toNat % 2 ^ 32

namespace U128LRU

/-- `compressHash`: the hash masked to the slots, a power of two. -/
def compressHash (m : U128LRU V) (key0 key1 : UInt64) : Nat :=
  jenkins128 key0 key1 &&& (m.hashSlots - 1)

def incIndex (m : U128LRU V) (index : Nat) : Nat :=
  let index := index + 1
  if index >>> 8 ≥ m.ringBufferLen then 0 else index

def getNode (m : U128LRU V) (index : Nat) : U128LRUNode V := m.ringBuffer index

/-- A write through the pointer `getNode(index)` returns. -/
def setNode (m : U128LRU V) (index : Nat) (node : U128LRUNode V) : U128LRU V :=
  { m with ringBuffer := Function.update m.ringBuffer index node }

def pushNodeToHashList (m : U128LRU V) (nodeIndex hash : Nat) : U128LRU V :=
  let next := m.hashSlotHead hash
  let m := m.setNode nodeIndex { m.getNode nodeIndex with hashListNext := next, hashListPrev := -1 }
  let m := if next ≠ -1 then
      m.setNode next.toNat { m.getNode next.toNat with hashListPrev := nodeIndex }
    else m
  { m with hashSlotHead := Function.update m.hashSlotHead hash nodeIndex }

def pushNodeToTimeList (m : U128LRU V) (nodeIndex : Nat) : U128LRU V :=
  let next := m.timeListHead
  let m := m.setNode nodeIndex { m.getNode nodeIndex with timeListNext := next, timeListPrev := -1 }
  let m := if next ≠ -1 then
      m.setNode next.toNat { m.getNode next.toNat with timeListPrev := nodeIndex }
    else m
  let m := { m with timeListHead := nodeIndex }
  if m.timeListTail = -1 then { m with timeListTail := nodeIndex } else m

/-- The slot whose head may change is the one the node keeps, `node.hash`. -/
def removeNodeFromHashList (m : U128LRU V) (node : U128LRUNode V) (newNext newPrev : Int) :
    U128LRU V :=
  let m := if node.hashListPrev ≠ -1 then
      m.setNode node.hashListPrev.toNat
        { m.getNode node.hashListPrev.toNat with hashListNext := newNext }
    else { m with hashSlotHead := Function.update m.hashSlotHead node.hash newNext }
  if node.hashListNext ≠ -1 then
    m.setNode node.hashListNext.toNat
      { m.getNode node.hashListNext.toNat with hashListPrev := newPrev }
  else m

def removeNodeFromTimeList (m : U128LRU V) (node : U128LRUNode V) (newNext newPrev : Int) :
    U128LRU V :=
  let m := if node.timeListPrev ≠ -1 then
      m.setNode node.timeListPrev.toNat
        { m.getNode node.timeListPrev.toNat with timeListNext := newNext }
    else { m with timeListHead := newNext }
  if node.timeListNext ≠ -1 then
    m.setNode node.timeListNext.toNat
      { m.getNode node.timeListNext.toNat with timeListPrev := newPrev }
  else { m with timeListTail := newPrev }

/-- `removeNode`: unlink the node, move the segment's first node into its slot,
and let the segment start one slot later. -/
def removeNode (m : U128LRU V) (nodeIndex : Nat) : U128LRU V :=
  let node := m.getNode nodeIndex
  let m := m.removeNodeFromHashList node node.hashListNext node.hashListPrev
  let m := m.removeNodeFromTimeList node node.timeListNext node.timeListPrev
  let m :=
    if nodeIndex ≠ m.bufferStartIndex then
      let firstNode := m.getNode m.bufferStartIndex
      let m := m.setNode nodeIndex firstNode
      let m := m.removeNodeFromHashList firstNode nodeIndex nodeIndex
      let m := m.removeNodeFromTimeList firstNode nodeIndex nodeIndex
      m.setNode m.bufferStartIndex blankU128LRUNodeForInit
    else m.setNode nodeIndex blankU128LRUNodeForInit
  { m with bufferStartIndex := m.incIndex m.bufferStartIndex, size := m.size - 1 }

/-- `updateNode`: the node goes to the front of the time list, then to the front
of its collision chain, and takes the value. -/
def updateNode (m : U128LRU V) (nodeIndex : Nat) (value : Option V) : U128LRU V :=
  let m :=
    if (nodeIndex : Int) ≠ m.timeListHead then
      let node := m.getNode nodeIndex
      let m := m.removeNodeFromTimeList node node.timeListNext node.timeListPrev
      m.pushNodeToTimeList nodeIndex
    else m
  let m :=
    if (nodeIndex : Int) ≠ m.hashSlotHead (m.getNode nodeIndex).hash then
      let node := m.getNode nodeIndex
      let m := m.removeNodeFromHashList node node.hashListNext node.hashListPrev
      m.pushNodeToHashList nodeIndex node.hash
    else m
  m.setNode nodeIndex { m.getNode nodeIndex with value := value }

/-- `newNode`: evict the least recently used node when full, then put the new node
at the end of the segment and at the front of both lists, on the slot `hash`. -/
def newNode (m : U128LRU V) (key0 key1 : UInt64) (value : Option V) (hash : Nat) : U128LRU V :=
  let m := if m.size ≥ m.capacity then m.removeNode m.timeListTail.toNat else m
  let index := m.bufferEndIndex
  let m := { m with size := m.size + 1 }
  let m := m.pushNodeToHashList index hash
  let m := m.pushNodeToTimeList index
  let m := m.setNode index
    { m.getNode index with key0 := key0, key1 := key1, value := value, hash := hash }
  { m with bufferEndIndex := m.incIndex index }

/-- The number of slots of the ring, which bounds the loops along a list. -/
def slots (m : U128LRU V) : Nat := m.ringBufferLen * 256

/-- `find`: the first node of the keys' collision chain that holds both words. -/
def find (m : U128LRU V) (key0 key1 : UInt64) : Option Nat :=
  (LinkList.walk (fun i => (m.getNode i).hashListNext) m.slots
    (m.hashSlotHead (m.compressHash key0 key1))).find? fun i =>
      (m.getNode i).key0 == key0 && (m.getNode i).key1 == key1

def add (m : U128LRU V) (key0 key1 : UInt64) (value : Option V) : U128LRU V :=
  match m.find key0 key1 with
  | some index => m.updateNode index value
  | none => m.newNode key0 key1 value (m.compressHash key0 key1)

/-- `AddOrGet`: the value a present key holds, which it keeps, or `nil` after adding
the key. -/
def addOrGet (m : U128LRU V) (key0 key1 : UInt64) (value : Option V) :
    Option (Option V) × U128LRU V :=
  match m.find key0 key1 with
  | some index => (some (m.getNode index).value, m.updateNode index (m.getNode index).value)
  | none => (none, m.newNode key0 key1 value (m.compressHash key0 key1))

/-- `Remove`: its loop is `find`'s without the statistics. -/
def remove (m : U128LRU V) (key0 key1 : UInt64) : U128LRU V :=
  match m.find key0 key1 with
  | some index => m.removeNode index
  | none => m

def get (m : U128LRU V) (key0 key1 : UInt64) (peek : Bool) : (Option V × Bool) × U128LRU V :=
  match m.find key0 key1 with
  | some index =>
      let value := (m.getNode index).value
      ((value, true), if peek then m else m.updateNode index value)
  | none => ((none, false), m)

/-- `Walk`: both words and the value along the time list, in the order of the callbacks. -/
def walk (m : U128LRU V) : List ((UInt64 × UInt64) × Option V) :=
  (LinkList.walk (fun i => (m.getNode i).timeListNext) m.slots m.timeListHead).map fun i =>
    (((m.getNode i).key0, (m.getNode i).key1), (m.getNode i).value)

def clear (m : U128LRU V) : U128LRU V :=
  { m with
    ringBuffer := fun i => { m.ringBuffer i with value := none }
    bufferStartIndex := 0
    bufferEndIndex := 0
    hashSlotHead := fun _ => -1
    timeListHead := -1
    timeListTail := -1
    size := 0 }

end U128LRU

namespace U128LRU

/-- One call on the map, its two words as one key of `Lru.Op`. -/
def call (m : U128LRU V) : Lru.Op (UInt64 × UInt64) (Option V) → U128LRU V
  | .add k v => m.add k.1 k.2 v
  | .get k peek => (m.get k.1 k.2 peek).2
  | .remove k => m.remove k.1 k.2
  | .clear => m.clear

/-- The map after a run of calls. -/
def run (m : U128LRU V) (ops : List (Lru.Op (UInt64 × UInt64) (Option V))) : U128LRU V :=
  ops.foldl call m

end U128LRU

end Sophon.Server
