/-
The agent's first-path policy table (`agent/src/policy/first_path.rs`, with
`MatchedFieldN` of `agent/src/common/matched_field.rs`).

The agent compiles each ACL into match items `(field, mask)` and builds the
same kind of table as the server's DDBS: `Vector::init` picks up to 16 vector
bits with the sort-table heuristic and sets them in a mask, `get_table_index`
packs the bits of a key that the mask selects, and `get_all_table_index`
files an item under every index its open vector positions allow.

A `MatchedFieldN<N>` is three byte arrays: the source address (`N` bytes), the
destination address (`N` bytes) and ten bytes of ports, EPCs, protocol and tap
type; bit `b` is bit `b & 7` of byte `b >> 3`.  `Fieldv4`/`Fieldv6` and
`Vector4`/`Vector6` are one definition over `N` (4 or 16).  Arrays are
functions from index to byte.  Rust panics on an offset past the field and on
`min > max` in `get_table_index`; no call below reaches either, and the model
reads such an offset as a zero bit and leaves `set_bits` unchanged there.
`merge_npb_actions` is a parameter `merge`.
-/
import Sophon.Server.Ddbs

namespace Sophon.Agent

variable {N : Nat} {P D : Type}

/-- `MatchedFieldN<N>`. -/
structure MatchedFieldN (N : Nat) where
  srcIp : Nat → UInt8
  dstIp : Nat → UInt8
  others : Nat → UInt8

namespace MatchedFieldN

/-- `MatchedFieldN::default()`. -/
def default : MatchedFieldN N := ⟨fun _ => 0, fun _ => 0, fun _ => 0⟩

/-- `bit_size()`. -/
def bitSize (_ : MatchedFieldN N) : Nat := (N * 2 + 10) * 8

def isBitZero (f : MatchedFieldN N) (offset : Nat) : Bool :=
  if offset < 8 * N then
    f.srcIp (offset >>> 3) &&& (1 <<< (offset &&& 7).toUInt8) == 0
  else if offset < 8 * 2 * N then
    let offset := offset - 8 * N
    f.dstIp (offset >>> 3) &&& (1 <<< (offset &&& 7).toUInt8) == 0
  else if offset < 8 * (2 * N + 10) then
    let offset := offset - 8 * 2 * N
    f.others (offset >>> 3) &&& (1 <<< (offset &&& 7).toUInt8) == 0
  else true

/-- `&`: byte by byte. -/
def and (f g : MatchedFieldN N) : MatchedFieldN N :=
  ⟨fun i => f.srcIp i &&& g.srcIp i, fun i => f.dstIp i &&& g.dstIp i,
    fun i => f.others i &&& g.others i⟩

/-- `==`: every byte of the three arrays agrees. -/
def beq (f g : MatchedFieldN N) : Bool :=
  (List.range N).all (fun i => f.srcIp i == g.srcIp i) &&
    (List.range N).all (fun i => f.dstIp i == g.dstIp i) &&
    (List.range 10).all (fun i => f.others i == g.others i)

/-- `set_bits(bits)`: clear the field, then write `1 << (b & 7)` into the byte of
every `b`.  The byte is assigned, not or-ed. -/
def setBits (bits : List Nat) : MatchedFieldN N :=
  bits.foldl (fun f b =>
    if b < 8 * N then
      { f with srcIp := Function.update f.srcIp (b >>> 3) (1 <<< (b &&& 7).toUInt8) }
    else if b < 8 * 2 * N then
      let b := b - 8 * N
      { f with dstIp := Function.update f.dstIp (b >>> 3) (1 <<< (b &&& 7).toUInt8) }
    else if b < 8 * (2 * N + 10) then
      let b := b - 8 * 2 * N
      { f with others := Function.update f.others (b >>> 3) (1 <<< (b &&& 7).toUInt8) }
    else f) default

/-- `get_table_index`, the loop of the server's `GetTableIndex`. -/
def getTableIndex (f maskVector : MatchedFieldN N) (min max : Nat) : Nat :=
  let result := f.and maskVector
  ((List.range' min (max + 1 - min)).foldl
    (BitRank.scanStep 16 (fun i => !result.isBitZero i) (fun i => !maskVector.isBitZero i))
    (0, 0)).1

/-- `get_all_table_index`. -/
def getAllTableIndex (f maskVector mask : MatchedFieldN N) (min max : Nat)
    (vectorBits : List Nat) : List Nat :=
  let index := f.getTableIndex maskVector min max
  let indexOffset := (vectorBits.zipIdx.filter fun (offset, _) => mask.isBitZero offset).map (·.2)
  let index := indexOffset.foldl (fun index offset => index &&& (0xFFFF ^^^ BitRank.shl1 16 offset)) index
  indexOffset.foldl (fun base offset => base ++ base.map (· ||| BitRank.shl1 16 offset)) [index]

end MatchedFieldN

/-- `Fieldv4` (`N = 4`) and `Fieldv6` (`N = 16`). -/
structure Field (N : Nat) where
  field : MatchedFieldN N
  mask : MatchedFieldN N

def Field.getAllTableIndex (v : Field N) (maskVector : MatchedFieldN N) (min max : Nat)
    (vectorBits : List Nat) : List Nat :=
  v.field.getAllTableIndex maskVector v.mask min max vectorBits

/-- An `Acl` (`agent/src/common/policy.rs`) with the fields the fast and first paths
read. -/
structure Acl (P : Type) where
  srcPortRanges : List Server.PortRange
  dstPortRanges : List Server.PortRange
  matchField : List (Field 4)
  matchField6 : List (Field 16)
  policy : P

/-- `Table4Item` / `Table6Item`. -/
structure TableItem (N : Nat) (P : Type) where
  field : Field N
  policy : P

/-- `Vector<N>` without the statistics field `count`. -/
structure Vector (N : Nat) where
  minBit : Nat
  maxBit : Nat
  mask : MatchedFieldN N
  vectorBits : List Nat

/-- `Vector::default()`. -/
def Vector.default : Vector N :=
  { minBit := 0, maxBit := 0, mask := MatchedFieldN.default, vectorBits := [] }

/-! ### The sort table and `Vector::init` -/

def calcIndex (matched0 matched1 base : Nat) : Nat :=
  if matched0 = 0 ∧ matched1 = 0 then base
  else (if matched0 > matched1 then matched0 - matched1 else matched1 - matched0)
    + (base - (matched0 + matched1))

def sortTableIndex (matched0 matched1 base : Nat) : Nat :=
  let index := calcIndex matched0 matched1 base
  if index > 32767 then index / ((base >>> 15) + 1) + 32767 else index

/-- `generate_sort_table4` / `generate_sort_table6` over the items of all ACLs. -/
def generateSortTableN (items : List (Field N)) (base : Nat) : Nat → List Nat :=
  (List.range ((N * 2 + 10) * 8)).foldl (fun table i =>
    let matched0 := (items.filter fun v => !v.mask.isBitZero i && v.field.isBitZero i).length
    let matched1 := (items.filter fun v => !v.mask.isBitZero i && !v.field.isBitZero i).length
    Buckets.append table (sortTableIndex matched0 matched1 base) i) (fun _ => [])

/-- `Vector::init` for the items of `links`: the first `vectorSize` bits of the sort
table, sorted, set in the mask.  Its two loops with their `break`s are the server's
`collectBits`. -/
def Vector.init (links : Acl P → List (Field N)) (acls : List (Acl P)) (vectorSize : Nat) :
    Vector N :=
  let items := acls.flatMap links
  let table := generateSortTableN items items.length
  let vectorBits := (Server.collectBits table vectorSize).mergeSort (· ≤ ·)
  { minBit := vectorBits.getD 0 0
    maxBit := vectorBits.getD (vectorSize - 1) 0
    mask := MatchedFieldN.setBits vectorBits
    vectorBits }

/-- `vector_size`: the largest of `15..4` with `sum >> current_level >= 1 << size`,
and 4 when there is none. -/
def vectorSize (sum currentLevel : Nat) : Nat :=
  ((List.range' 4 12).reverse.find? fun size => decide (sum >>> currentLevel ≥ 1 <<< size)).getD 4

/-! ### The table and the lookup -/

/-- `generate_table4` / `generate_table6`: every item is pushed on the back of the
bucket of each of its indexes. -/
def generateTableN (v : Vector N) (links : Acl P → List (Field N)) (acls : List (Acl P)) :
    Nat → List (TableItem N P) :=
  acls.foldl (fun table acl =>
    (links acl).foldl (fun table item =>
      (item.getAllTableIndex v.mask v.minBit v.maxBit v.vectorBits).foldl
        (fun table index => Buckets.append table index { field := item, policy := acl.policy })
        table) table) (fun _ => [])

/-- One item of the bucket loop of `get_policy_from_table4`. -/
def mergeItem (merge : P → P → D → P) (field : MatchedFieldN N) (direction : D) (policy : P)
    (item : TableItem N P) : P :=
  if (field.and item.field.mask).beq item.field.field then merge policy item.policy direction
  else policy

/-- `get_policy_from_table4` / `get_policy_from_table6` over `v` and `table`. -/
def getPolicyFromTableN (merge : P → P → D → P) (v : Vector N) (table : Nat → List (TableItem N P))
    (field : MatchedFieldN N) (direction : D) (policy : P) : P :=
  let index := field.getTableIndex v.mask v.minBit v.maxBit
  (table index).foldl (mergeItem merge field direction) policy

/-- The tables of `FirstPath`. -/
structure FirstPath (P : Type) where
  vector4 : Vector 4
  table4 : Nat → List (TableItem 4 P)
  vector6 : Vector 16
  table6 : Nat → List (TableItem 16 P)

namespace FirstPath

/-- `generate_first_table` once its memory loop has settled: `vectorSize` is the
size of its last round, `none` when the loop did not run. -/
def generateFirstTable (acls : List (Acl P)) (vectorSize : Option Nat) : FirstPath P :=
  let (v4, v6) : Vector 4 × Vector 16 := match vectorSize with
    | none => (Vector.default, Vector.default)
    | some k => (Vector.init Acl.matchField acls k, Vector.init Acl.matchField6 acls k)
  { vector4 := v4, table4 := generateTableN v4 Acl.matchField acls,
    vector6 := v6, table6 := generateTableN v6 Acl.matchField6 acls }

def getPolicyFromTable4 (fp : FirstPath P) (merge : P → P → D → P) (field : MatchedFieldN 4)
    (direction : D) (policy : P) : P :=
  getPolicyFromTableN merge fp.vector4 fp.table4 field direction policy

def getPolicyFromTable6 (fp : FirstPath P) (merge : P → P → D → P) (field : MatchedFieldN 16)
    (direction : D) (policy : P) : P :=
  getPolicyFromTableN merge fp.vector6 fp.table6 field direction policy

end FirstPath

end Sophon.Agent
