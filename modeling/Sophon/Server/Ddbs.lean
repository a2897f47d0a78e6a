/-
The server's DDBS first-path table (`server/libs/policy/ddbs.go`, with the
`MatchedField` methods of `server/libs/datatype/matched_field.go`).

An ACL is compiled into match nodes, each a pair `(Matched, MatchedMask)` of
bit fields; a key matches a node when `key AND MatchedMask == Matched`.  To avoid
trying every node, `generateDdbsTable` picks up to 16 bit positions (the vector
bits) with the sort-table heuristic and files every node in a table of 2^16
buckets: under the index its own bits give at those positions, once for every
way of filling the positions its mask leaves open (`GetAllTableIndex`).  A
lookup computes the key's index (`GetTableIndex`) and tries the nodes of that
one bucket.

The IPv4 and IPv6 halves of the Go code are two copies of one text over
`MatchedField` (3 words, 144 bits used) and `MatchedField6` (6 words, 336 bits);
here they are one definition over the word count `n`, and each Go function keeps
its own name as that definition applied to its own bit length and link.

A `[n]uint64` array is a function from word index to word; an index of the
16-bit table is a `Nat` below 2^16, with Go's `1 << offset` on a `uint16` as
`BitRank.shl1 16 offset`; the linked lists of the Go code are lists, head first.
`PolicyData.Merge` is a parameter `merge`, the fresh `new(PolicyData)` is
`empty`, and `INVALID_POLICY_DATA` is `none`.

`generateDdbsTable` picks the vector size in a loop over memory levels: a round
builds the vectors, counts the table items they would file, and checks the
process's memory (`d.Current()`) plus their bytes against `d.memoryLimit`; on a
failed check it goes up a level, which halves the node count the size is read
from.  The reading of round `r` is a parameter `current r`, and the sums are
naturals, so `Current() + memorySize` does not wrap.  `generateAclBits`, which
builds the match nodes and fails before the loop without a change to `Ddbs`, is
left out: the ACLs come with their links built.
-/
import Sophon.Lib.BitRank
import Sophon.Lib.Buckets
import Sophon.Lib.Loop
import Sophon.Server.PortRange

namespace Sophon.Server

variable {n : Nat} {P D : Type}

/-- `MatchedField` (`n = 3`) and `MatchedField6` (`n = 6`). -/
structure MatchedField (n : Nat) where
  fields : Nat → UInt64

namespace MatchedField

/-- `blankMatchedFieldForInit`. -/
def blank : MatchedField n := ⟨fun _ => 0⟩

def isBitZero (f : MatchedField n) (offset : Nat) : Bool :=
  let index := offset >>> 6
  let position := offset &&& 0x3f
  (f.fields index >>> position.toUInt64) &&& 1 == 0

def and (f g : MatchedField n) : MatchedField n :=
  ⟨fun i => f.fields i &&& g.fields i⟩

/-- `Equal`: the `n` words agree. -/
def equal (f g : MatchedField n) : Bool :=
  (List.range n).all fun i => f.fields i == g.fields i

/-- `SetBits(whichs...)`: a blank field with the bits `whichs` set. -/
def setBits (whichs : List Nat) : MatchedField n :=
  whichs.foldl (fun f which =>
    let index := which >>> 6
    let offset := which &&& 0x3f
    ⟨Function.update f.fields index (f.fields index ||| (1 <<< offset.toUInt64))⟩) blank

/-- `GetTableIndex`: walk the bits `min..max`; a bit of `f AND maskVector` sets the
next free bit of the index, and every bit of `maskVector` moves to the next one. -/
def getTableIndex (f maskVector : MatchedField n) (min max : Nat) : Nat :=
  let result := f.and maskVector
  ((List.range' min (max + 1 - min)).foldl
    (BitRank.scanStep 16 (fun i => !result.isBitZero i) (fun i => !maskVector.isBitZero i))
    (0, 0)).1

/-- `GetAllTableIndex`: the index of `f`, with the bits of the vector positions that
`mask` leaves open cleared, then every way of setting them. -/
def getAllTableIndex (f maskVector mask : MatchedField n) (min max : Nat)
    (vectorBits : List Nat) : List Nat :=
  let index := f.getTableIndex maskVector min max
  -- the positions `i` in `vectorBits` whose bit the mask leaves open
  let indexOffset := (vectorBits.zipIdx.filter fun (offset, _) => mask.isBitZero offset).map (·.2)
  let index := indexOffset.foldl (fun index offset => index &&& (0xFFFF ^^^ BitRank.shl1 16 offset)) index
  indexOffset.foldl (fun base offset => base ++ base.map (· ||| BitRank.shl1 16 offset)) [index]

end MatchedField

/-- `MatchNode` / `Match6Node`. -/
structure MatchNode (n : Nat) where
  matched : MatchedField n
  matchedMask : MatchedField n

def MatchNode.getAllTableIndex (node : MatchNode n) (maskVector : MatchedField n) (min max : Nat)
    (vectorBits : List Nat) : List Nat :=
  node.matched.getAllTableIndex maskVector node.matchedMask min max vectorBits

/-- An `Acl` as the tables use it: its port ranges, its two links of match nodes,
head first, and its merged `policy`. -/
structure Acl (P : Type) where
  srcPortRange : List PortRange
  dstPortRange : List PortRange
  fieldLink : List (MatchNode 3)
  field6Link : List (MatchNode 6)
  policy : P

/-- `TableItem` / `Table6Item`: Go's `match` and `mask` point at a node's `Matched`
and `MatchedMask`. -/
structure TableItem (n : Nat) (P : Type) where
  matched : MatchedField n
  matchedMask : MatchedField n
  policy : P

/-- `vector` / `vector6` without the statistics field `itemCount`. -/
structure DdbsVector (n : Nat) where
  maskMinBit : Nat
  maskMaxBit : Nat
  vectorBits : List Nat
  maskVector : MatchedField n

/-- `vector{}`. -/
def DdbsVector.blank : DdbsVector n :=
  { maskMinBit := 0, maskMaxBit := 0, vectorBits := [], maskVector := MatchedField.blank }

/-! ### The sort table and the mask vector -/

def calcIndex (a b base : Nat) : Nat :=
  if a = 0 ∧ b = 0 then base
  -- `abs(a, b) + (base - (a + b))`; `a + b` never exceeds `base`, the number of nodes
  else (if a > b then a - b else b - a) + (base - (a + b))

/-- `getSortTableIndex`: indexes above `math.MaxInt16` are folded into the upper half. -/
def getSortTableIndex (matched0 matched1 base : Nat) : Nat :=
  let index := calcIndex matched0 matched1 base
  if index > 32767 then index / ((base >>> 15) + 1) + 32767 else index

/-- `generateSortTable` over `bitsLen` bits and the nodes of `links`: every bit
position is appended to the bucket its 0/1 split among the nodes that fix it gives. -/
def generateSortTableN (bitsLen : Nat) (links : Acl P → List (MatchNode n)) (acls : List (Acl P)) :
    Nat → List Nat :=
  let nodes := acls.flatMap links
  let base := nodes.length
  (List.range bitsLen).foldl (fun table i =>
    let matched0 := (nodes.filter fun item =>
      !item.matchedMask.isBitZero i && item.matched.isBitZero i).length
    let matched1 := (nodes.filter fun item =>
      !item.matchedMask.isBitZero i && !item.matched.isBitZero i).length
    Buckets.append table (getSortTableIndex matched0 matched1 base) i) (fun _ => [])

def generateSortTable (acls : List (Acl P)) : Nat → List Nat :=
  generateSortTableN 144 Acl.fieldLink acls

def generateSortTable6 (acls : List (Acl P)) : Nat → List Nat :=
  generateSortTableN 336 Acl.field6Link acls

/-- The inner loop of `generateMaskVector`: append bit offsets until there are `vectorSize`. -/
def appendBits (vectorSize : Nat) : List Nat → List Nat → List Nat
  | bits, [] => bits
  | bits, bitOffset :: rest =>
      if vectorSize ≤ (bits ++ [bitOffset]).length then bits ++ [bitOffset]
      else appendBits vectorSize (bits ++ [bitOffset]) rest

/-- The outer loop of `generateMaskVector`, over the buckets `0..math.MaxUint16-1`. -/
def collectBits (table : Nat → List Nat) (vectorSize : Nat) : List Nat :=
  (List.range 65535).foldl (fun bits i =>
    if bits.length < vectorSize then appendBits vectorSize bits (table i) else bits) []

/-- `generateMaskVector`: the first `vectorSize` bits of the sort table, sorted. -/
def DdbsVector.generateMaskVector (vectorSize : Nat) (table : Nat → List Nat) : DdbsVector n :=
  let vectorBits := (collectBits table vectorSize).mergeSort (· ≤ ·)
  { maskMinBit := vectorBits.getD 0 0
    maskMaxBit := vectorBits.getD (vectorSize - 1) 0
    vectorBits
    maskVector := MatchedField.setBits vectorBits }

/-- The vector size `getVectorSize` returns for `matchedSum` nodes at memory level
`currentLevel`: the largest of `16..4` with `matchedSum >> currentLevel >= 1 << size`,
and 3 when there is none. -/
def getVectorSize (matchedSum currentLevel : Nat) : Nat :=
  ((List.range' 4 13).reverse.find? fun vectorSize =>
    decide (matchedSum >>> currentLevel ≥ 1 <<< vectorSize)).getD 3

/-! ### The table and the lookup -/

/-- `generateVectorTable` over `links`: every node is pushed on the front of the
bucket of each of its indexes. -/
def generateVectorTableN (v : DdbsVector n) (links : Acl P → List (MatchNode n))
    (acls : List (Acl P)) : Nat → List (TableItem n P) :=
  acls.foldl (fun table acl =>
    (links acl).foldl (fun table node =>
      (node.getAllTableIndex v.maskVector v.maskMinBit v.maskMaxBit v.vectorBits).foldl
        (fun table index =>
          Buckets.push table index
            { matched := node.matched, matchedMask := node.matchedMask, policy := acl.policy })
        table) table) (fun _ => [])

/-- One item of the bucket loop of `getPolicyFromTable`: merge the item's policy when
the key matches it, starting from a fresh `PolicyData` when there was none. -/
def mergeItem (merge : P → P → D → P) (empty : P) (key : MatchedField n) (direction : D)
    (portPolicy : Option P) (item : TableItem n P) : Option P :=
  if (key.and item.matchedMask).equal item.matched then
    some (merge (portPolicy.getD empty) item.policy direction)
  else portPolicy

/-- `getPolicyFromTable` over the vector `v` and the table `table`. -/
def getPolicyFromTableN (merge : P → P → D → P) (empty : P) (v : DdbsVector n)
    (table : Nat → List (TableItem n P)) (key : MatchedField n) (direction : D)
    (portPolicy : Option P) : Option P :=
  let index := key.getTableIndex v.maskVector v.maskMinBit v.maskMaxBit
  (table index).foldl (mergeItem merge empty key direction) portPolicy

/-- The tables of `Ddbs`. -/
structure Ddbs (P : Type) where
  vector : DdbsVector 3
  table : Nat → List (TableItem 3 P)
  vector6 : DdbsVector 6
  table6 : Nat → List (TableItem 6 P)

namespace Ddbs

def generateVectorTable (v : DdbsVector 3) (acls : List (Acl P)) : Nat → List (TableItem 3 P) :=
  generateVectorTableN v Acl.fieldLink acls

def generateVectorTable6 (v : DdbsVector 6) (acls : List (Acl P)) : Nat → List (TableItem 6 P) :=
  generateVectorTableN v Acl.field6Link acls

/-- `generateDdbsTable` once its memory loop has settled: `vectorSize` is the size of
its last round, `none` when the loop did not run and the vectors stay `vector{}`. -/
def generateDdbsTable (acls : List (Acl P)) (vectorSize : Option Nat) : Ddbs P :=
  let (v, v6) : DdbsVector 3 × DdbsVector 6 := match vectorSize with
    | none => (DdbsVector.blank, DdbsVector.blank)
    | some k => (DdbsVector.generateMaskVector k (generateSortTable acls),
        DdbsVector.generateMaskVector k (generateSortTable6 acls))
  { vector := v, table := generateVectorTable v acls,
    vector6 := v6, table6 := generateVectorTable6 v6 acls }

def getPolicyFromTable (d : Ddbs P) (merge : P → P → D → P) (empty : P) (key : MatchedField 3)
    (direction : D) (portPolicy : Option P) : Option P :=
  getPolicyFromTableN merge empty d.vector d.table key direction portPolicy

def getPolicyFromTable6 (d : Ddbs P) (merge : P → P → D → P) (empty : P) (key : MatchedField 6)
    (direction : D) (portPolicy : Option P) : Option P :=
  getPolicyFromTableN merge empty d.vector6 d.table6 key direction portPolicy

end Ddbs

/-! ### The memory loop -/

/-- `_TABLE_ITEM_SIZE`, the bytes of one table item. -/
def TABLE_ITEM_SIZE : Nat := 8 * 4

/-- `_LEVEL_MIN`. -/
def LEVEL_MIN : Nat := 1

/-- `_LEVEL_MAX`. -/
def LEVEL_MAX : Nat := 16

/-- `_POLICY_LIMIT`, the node count under which the configured level comes back,
for a memory limit of `_MEMORY_LIMIT` or more. -/
def POLICY_LIMIT : Nat := 5000000

/-- `_MEMORY_LIMIT`. -/
def MEMORY_LIMIT : Nat := 1 <<< 20

/-- The nodes of both links of every ACL: `matchedSum` of `getVectorSize` and
`policyCount` of `generateDdbsTable`, a link's `Count` being its length. -/
def matchedSum (acls : List (Acl P)) : Nat :=
  acls.foldl (fun sum acl => sum + (acl.fieldLink.length + acl.field6Link.length)) 0

/-- The level `getVectorSize` leaves in `d.currentLevel` before it picks the size:
the configured `level` again when the memory was not exceeded and the nodes are
within the policy limit, scaled down for a memory limit under `_MEMORY_LIMIT`. -/
def resetLevel (matchedSum memoryLimit level currentLevel : Nat) (memoryExceeded : Bool) : Nat :=
  let limit :=
    if memoryLimit ≠ 0 ∧ memoryLimit ≤ MEMORY_LIMIT then POLICY_LIMIT * memoryLimit / MEMORY_LIMIT
    else POLICY_LIMIT
  if matchedSum ≤ limit ∧ memoryExceeded = false ∧ currentLevel ≠ level then level
  else currentLevel

/-- `calcVectorTableMemory` over `links`: the bytes of the items the table would
hold, and their number, which the Go method keeps in `itemCount`. -/
def DdbsVector.calcVectorTableMemoryN (v : DdbsVector n) (links : Acl P → List (MatchNode n))
    (acls : List (Acl P)) : Nat × Nat :=
  let num := acls.foldl (fun num acl => (links acl).foldl (fun num node =>
    num + (node.getAllTableIndex v.maskVector v.maskMinBit v.maskMaxBit v.vectorBits).length)
      num) 0
  (num * TABLE_ITEM_SIZE, num)

def DdbsVector.calcVectorTableMemory (v : DdbsVector 3) (acls : List (Acl P)) : Nat × Nat :=
  v.calcVectorTableMemoryN Acl.fieldLink acls

def DdbsVector.calcVectorTableMemory6 (v : DdbsVector 6) (acls : List (Acl P)) : Nat × Nat :=
  v.calcVectorTableMemoryN Acl.field6Link acls

/-- The error of a round that fails its memory check and cannot go up a level. -/
def memoryExceedError (memoryLimit : Nat) : String :=
  "DDBS memory limit (" ++ toString memoryLimit ++
    "B) will be exceed, please enlarge total memory limit or optimize policy."

/-- The variables of the memory loop: the rounds run so far, `d.currentLevel`, `ok`,
`vectorSize`, and the vectors `v` and `v6`. -/
structure MemoryLoop where
  round : Nat
  currentLevel : Nat
  ok : Bool
  vectorSize : Nat
  v : DdbsVector 3
  v6 : DdbsVector 6

/-- One turn of the memory loop: a round, or the exit with the level and the
vectors; a round that fails its check on the last level stops with the error. -/
def memoryTurn (acls : List (Acl P)) (level memoryLimit : Nat) (current : Nat → Nat)
    (s : MemoryLoop) : (Nat × Except String (DdbsVector 3 × DdbsVector 6)) ⊕ MemoryLoop :=
  if s.currentLevel < LEVEL_MAX ∧ (s.ok = false ∨ s.vectorSize = 0) then
    let currentLevel := resetLevel (matchedSum acls) memoryLimit level s.currentLevel !s.ok
    let vectorSize := getVectorSize (matchedSum acls) currentLevel
    let v : DdbsVector 3 := .generateMaskVector vectorSize (generateSortTable acls)
    let v6 : DdbsVector 6 := .generateMaskVector vectorSize (generateSortTable6 acls)
    let memorySize := (v.calcVectorTableMemory acls).1 + (v6.calcVectorTableMemory6 acls).1
    let policyCount := matchedSum acls
    let itemCount := (v.calcVectorTableMemory acls).2 + (v6.calcVectorTableMemory6 acls).2
    if memoryLimit = 0 ∨ current s.round + memorySize < memoryLimit then
      .inr ⟨s.round + 1, currentLevel, true, vectorSize, v, v6⟩
    else if currentLevel < LEVEL_MAX ∧ itemCount > policyCount then
      .inr ⟨s.round + 1, currentLevel + 1, false, vectorSize, v, v6⟩
    else .inl (currentLevel, .error (memoryExceedError memoryLimit))
  else .inl (s.currentLevel, .ok (s.v, s.v6))

/-- The memory loop on `fuel` turns, from `vector{}`, `ok` and a `vectorSize` of 0. -/
def memoryLoopFuel (fuel : Nat) (acls : List (Acl P)) (level memoryLimit currentLevel : Nat)
    (current : Nat → Nat) : Nat × Except String (DdbsVector 3 × DdbsVector 6) :=
  Loop.whileFuel (memoryTurn acls level memoryLimit current) (currentLevel, .error "") fuel
    ⟨0, currentLevel, true, 0, .blank, .blank⟩

/-- The memory loop of `generateDdbsTable`, which takes at most `_LEVEL_MAX + 2` turns. -/
def memoryLoop (acls : List (Acl P)) (level memoryLimit currentLevel : Nat)
    (current : Nat → Nat) : Nat × Except String (DdbsVector 3 × DdbsVector 6) :=
  memoryLoopFuel (LEVEL_MAX + 2) acls level memoryLimit currentLevel current

/-- The tables `generateDdbsTable` installs from the vectors of its loop. -/
def Ddbs.ofVectors (acls : List (Acl P)) (v : DdbsVector 3) (v6 : DdbsVector 6) : Ddbs P :=
  { vector := v, table := Ddbs.generateVectorTable v acls,
    vector6 := v6, table6 := Ddbs.generateVectorTable6 v6 acls }

/-! ### Policy updates -/

/-- The fields of `Ddbs` the policy updates read and write: the configured `level`,
the `currentLevel` the memory loop moves, `memoryLimit`, and the tables. -/
structure DdbsState (P : Type) where
  level : Nat
  currentLevel : Nat
  memoryLimit : Nat
  tables : Ddbs P

/-- The tables of a new `Ddbs`: empty, over `vector{}`. -/
def Ddbs.empty : Ddbs P :=
  { vector := .blank, table := fun _ => [], vector6 := .blank, table6 := fun _ => [] }

/-- `NewDdbs`, which exits on a level outside `_LEVEL_MIN..=_LEVEL_MAX`. -/
def newDdbs (level : Nat) : Option (DdbsState P) :=
  if level < LEVEL_MIN ∨ level > LEVEL_MAX then none
  else some ⟨level, level, 0, Ddbs.empty⟩

namespace DdbsState

/-- `generateDdbsTable` from its loop on: the level the loop reached stays in
`d.currentLevel` whether or not it fails, and only a loop that succeeds installs
its tables. -/
def generateDdbsTable (d : DdbsState P) (acls : List (Acl P)) (current : Nat → Nat) :
    DdbsState P × Except String Unit :=
  let r := memoryLoop acls d.level d.memoryLimit d.currentLevel current
  match r.2 with
  | .ok (v, v6) => ({ d with currentLevel := r.1, tables := Ddbs.ofVectors acls v v6 }, .ok ())
  | .error e => ({ d with currentLevel := r.1 }, .error e)

def updateMemoryLimit (d : DdbsState P) (memoryLimit : Nat) : DdbsState P :=
  { d with memoryLimit := memoryLimit }

end DdbsState

/-- A call on the table: `UpdateMemoryLimit`, or `generateDdbsTable` with its ACLs
and the memory reading of each round. -/
inductive DdbsCall (P : Type) where
  | updateMemoryLimit (memoryLimit : Nat)
  | generateDdbsTable (acls : List (Acl P)) (current : Nat → Nat)

namespace DdbsState

def call (d : DdbsState P) : DdbsCall P → DdbsState P
  | .updateMemoryLimit memoryLimit => d.updateMemoryLimit memoryLimit
  | .generateDdbsTable acls current => (d.generateDdbsTable acls current).1

/-- The state after a run of calls. -/
def run (d : DdbsState P) (calls : List (DdbsCall P)) : DdbsState P :=
  calls.foldl call d

end DdbsState

end Sophon.Server
