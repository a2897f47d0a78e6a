/-
The server's LRU map with `uint64` keys (`server/libs/hmap/lru/u64_lru.go`, with
`keyhash.Jenkins` and `minPowerOfTwo`).

The nodes live in a ring buffer of blocks of `_BLOCK_SIZE = 256` nodes, and the
live nodes are the ring segment from `bufferStartIndex` up to `bufferEndIndex`.
Every live node is on the collision chain of its key's hash slot and on the time
list, both linked both ways through node indices with `-1` for none; the time
list runs from the most recently used node (`timeListHead`) to the least
(`timeListTail`).  A new node goes at the end of the segment, and `removeNode`
keeps the segment compact: it copies the segment's first node into the freed
slot and points that node's neighbours at the new place.

The model flattens the ring: node `i` is `ringBuffer[i >> 8][i & 255]`, and
`ringBufferLen` is `len(ringBuffer)`.  Which blocks are allocated, the block
pool, the statistics counter and the collision-chain debug copy decide only where
memory comes from and what is reported, and are left out.  A value is an
`interface{}`, `none` standing for `nil`.  The `int32` indices are naturals, which
is faithful while the ring has at most `2^31` slots, for a capacity below about
`2^31 - 512`; beyond it `incIndex` overflows after `2^31` insertions and Go's
`newNode` panics on a negative index.  Go's helpers take a pointer to a node
and never write that node's own fields before reading them, so the model passes
the node they read.  The loops along a chain or along the time list follow next
links until `-1`; the model bounds them by the number of slots of the ring, more
than any list of distinct slots needs.
-/
import Sophon.Lib.LinkList
import Sophon.Lib.Lru

namespace Sophon.Server

variable {V : Type}

/-- `u64LRUNode`. -/
structure U64LRUNode (V : Type) where
  key : UInt64
  value : Option V
  hashListNext : Int
  hashListPrev : Int
  timeListNext : Int
  timeListPrev : Int

/-- `blankU64LRUNodeForInit`, Go's zero node. -/
def blankU64LRUNodeForInit : U64LRUNode V := ⟨0, none, 0, 0, 0, 0⟩

/-- `U64LRU` without its statistics and debug fields. -/
structure U64LRU (V : Type) where
  ringBuffer : Nat → U64LRUNode V
  ringBufferLen : Nat
  bufferStartIndex : Nat
  bufferEndIndex : Nat
  hashSlots : Nat
  hashSlotHead : Nat → Int
  timeListHead : Int
  timeListTail : Int
  capacity : Nat
  size : Nat

/-- `keyhash.Jenkins`, before its final conversion to `int32`. -/
def jenkins (hash : UInt64) : UInt64 :=
  let hash := (hash <<< 21) - hash - 1
  let hash := hash ^^^ (hash >>> 24)
  let hash := (hash + (hash <<< 3)) + (hash <<< 8)
  let hash := hash ^^^ (hash >>> 14)
  let hash := (hash + (hash <<< 2)) + (hash <<< 4)
  let hash := hash ^^^ (hash >>> 28)
  hash + (hash <<< 31)

namespace U64LRU

/-- `compressHash`: the `int32` hash masked to the slots, a power of two. -/
def compressHash (m : U64LRU V) (hash : UInt64) : Nat :=
  (jenkins hash).toNat % 2 ^ 32 &&& (m.hashSlots - 1)

def incIndex (m : U64LRU V) (index : Nat) : Nat :=
  let index := index + 1
  if index >>> 8 ≥ m.ringBufferLen then 0 else index

def getNode (m : U64LRU V) (index : Nat) : U64LRUNode V := m.ringBuffer index

/-- A write through the pointer `getNode(index)` returns. -/
def setNode (m : U64LRU V) (index : Nat) (node : U64LRUNode V) : U64LRU V :=
  { m with ringBuffer := Function.update m.ringBuffer index node }

def pushNodeToHashList (m : U64LRU V) (nodeIndex hash : Nat) : U64LRU V :=
  let next := m.hashSlotHead hash
  let m := m.setNode nodeIndex { m.getNode nodeIndex with hashListNext := next, hashListPrev := -1 }
  let m := if next ≠ -1 then
      m.setNode next.toNat { m.getNode next.toNat with hashListPrev := nodeIndex }
    else m
  { m with hashSlotHead := Function.update m.hashSlotHead hash nodeIndex }

def pushNodeToTimeList (m : U64LRU V) (nodeIndex : Nat) : U64LRU V :=
  let next := m.timeListHead
  let m := m.setNode nodeIndex { m.getNode nodeIndex with timeListNext := next, timeListPrev := -1 }
  let m := if next ≠ -1 then
      m.setNode next.toNat { m.getNode next.toNat with timeListPrev := nodeIndex }
    else m
  let m := { m with timeListHead := nodeIndex }
  if m.timeListTail = -1 then { m with timeListTail := nodeIndex } else m

def removeNodeFromHashList (m : U64LRU V) (node : U64LRUNode V) (newNext newPrev : Int) :
    U64LRU V :=
  let m := if node.hashListPrev ≠ -1 then
      m.setNode node.hashListPrev.toNat
        { m.getNode node.hashListPrev.toNat with hashListNext := newNext }
    else { m with hashSlotHead := Function.update m.hashSlotHead (m.compressHash node.key) newNext }
  if node.hashListNext ≠ -1 then
    m.setNode node.hashListNext.toNat
      { m.getNode node.hashListNext.toNat with hashListPrev := newPrev }
  else m

def removeNodeFromTimeList (m : U64LRU V) (node : U64LRUNode V) (newNext newPrev : Int) :
    U64LRU V :=
  let m := if node.timeListPrev ≠ -1 then
      m.setNode node.timeListPrev.toNat
        { m.getNode node.timeListPrev.toNat with timeListNext := newNext }
    else { m with timeListHead := newNext }
  if node.timeListNext ≠ -1 then
    m.setNode node.timeListNext.toNat
      { m.getNode node.timeListNext.toNat with timeListPrev := newPrev }
  else { m with timeListTail := newPrev }

/-- `removeNode`: unlink the node, move the segment's first node into its slot,
and let the segment start one slot later. -/
def removeNode (m : U64LRU V) (nodeIndex : Nat) : U64LRU V :=
  let node := m.getNode nodeIndex
  let m := m.removeNodeFromHashList node node.hashListNext node.hashListPrev
  let m := m.removeNodeFromTimeList node node.timeListNext node.timeListPrev
  let m :=
    if nodeIndex ≠ m.bufferStartIndex then
      let firstNode := m.getNode m.bufferStartIndex
      let m := m.setNode nodeIndex firstNode
      let m := m.removeNodeFromHashList firstNode nodeIndex nodeIndex
      let m := m.removeNodeFromTimeList firstNode nodeIndex nodeIndex
      m.setNode m.bufferStartIndex blankU64LRUNodeForInit
    else m.setNode nodeIndex blankU64LRUNodeForInit
  { m with bufferStartIndex := m.incIndex m.bufferStartIndex, size := m.size - 1 }

def updateNode (m : U64LRU V) (nodeIndex : Nat) (value : Option V) : U64LRU V :=
  let m :=
    if (nodeIndex : Int) ≠ m.timeListHead then
      let node := m.getNode nodeIndex
      let m := m.removeNodeFromTimeList node node.timeListNext node.timeListPrev
      m.pushNodeToTimeList nodeIndex
    else m
  m.setNode nodeIndex { m.getNode nodeIndex with value := value }

/-- `newNode`: evict the least recently used node when full, then put the new node
at the end of the segment and at the front of both lists. -/
def newNode (m : U64LRU V) (key : UInt64) (value : Option V) : U64LRU V :=
  let m := if m.size ≥ m.capacity then m.removeNode m.timeListTail.toNat else m
  let index := m.bufferEndIndex
  let m := { m with size := m.size + 1 }
  let m := m.pushNodeToHashList index (m.compressHash key)
  let m := m.pushNodeToTimeList index
  let m := m.setNode index { m.getNode index with key := key, value := value }
  { m with bufferEndIndex := m.incIndex index }

/-- The number of slots of the ring, which bounds the loops along a list. -/
def slots (m : U64LRU V) : Nat := m.ringBufferLen * 256

/-- `find`: the first node of the key's collision chain that holds the key. -/
def find (m : U64LRU V) (key : UInt64) : Option Nat :=
  (LinkList.walk (fun i => (m.getNode i).hashListNext) m.slots
    (m.hashSlotHead (m.compressHash key))).find? fun i => (m.getNode i).key == key

def add (m : U64LRU V) (key : UInt64) (value : Option V) : U64LRU V :=
  match m.find key with
  | some index => m.updateNode index value
  | none => m.newNode key value

/-- `Remove`: its loop is `find`'s without the statistics. -/
def remove (m : U64LRU V) (key : UInt64) : U64LRU V :=
  match m.find key with
  | some index => m.removeNode index
  | none => m

def get (m : U64LRU V) (key : UInt64) (peek : Bool) : (Option V × Bool) × U64LRU V :=
  match m.find key with
  | some index =>
      let value := (m.getNode index).value
      ((value, true), if peek then m else m.updateNode index value)
  | none => ((none, false), m)

/-- `Walk`: the keys and values along the time list, in the order of the callbacks. -/
def walk (m : U64LRU V) : List (UInt64 × Option V) :=
  (LinkList.walk (fun i => (m.getNode i).timeListNext) m.slots m.timeListHead).map fun i =>
    ((m.getNode i).key, (m.getNode i).value)

def clear (m : U64LRU V) : U64LRU V :=
  { m with
    ringBuffer := fun i => { m.ringBuffer i with value := none }
    bufferStartIndex := 0
    bufferEndIndex := 0
    hashSlotHead := fun _ => -1
    timeListHead := -1
    timeListTail := -1
    size := 0 }

end U64LRU

namespace U64LRU

/-- One call on the map, under the names of `Lru.Op`: `Add`, `Get`, `Remove`, `Clear`. -/
def call (m : U64LRU V) : Lru.Op UInt64 (Option V) → U64LRU V
  | .add k v => m.add k v
  | .get k peek => (m.get k peek).2
  | .remove k => m.remove k
  | .clear => m.clear

/-- The map after a run of calls. -/
def run (m : U64LRU V) (ops : List (Lru.Op UInt64 (Option V))) : U64LRU V := ops.foldl call m

end U64LRU

end Sophon.Server
