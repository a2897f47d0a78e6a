/-
The agent's fast-path port map (`agent/src/policy/fast_path.rs`, with
`PortRangeList` of `agent/src/common/port_range.rs`).

The fast path keys a packet by representative ports: `generate_interest_table`
maps every port of a segment of `PortRangeList::interest` to that segment, and
every port left at `PortRange::ZERO` to `[port_other, port_other]`;
`interest_table_map` then rewrites a packet's ports to the `min()` of their
entries.  `port_other` follows the block of segments that starts at port 0: it is
the end of that block, and 0 when the first segment does not start at 0.

`interest` is a translation of the server's `GetPortRanges`: its walk over the
status table is `Server.createPortRangeByTable` step for step, and its marking
loop differs only in counting the inner ports in `usize` from `min + 1` (the
server counts in `uint16`).  The agent's `PortRange` packs `min << 16 | max` into a
`u32` like the server's, so the model reuses `Server.PortRange`, whose zero
value `⟨0, 0⟩` is `PortRange::ZERO`.  The table is a function from port to range.
-/
import Sophon.Agent.FirstPath
import Sophon.Server.Interest

namespace Sophon.Agent

open Server (PortRange PortStatus newPortRange)

variable {P : Type}

/-- The body of `create_table`'s loop: the marks of one range. -/
def markRange (table : Nat → PortStatus) (port : PortRange) : Nat → PortStatus :=
  if port.min = port.max then Function.update table port.min .rangeEdge
  else
    let table := Function.update table port.min
      (if table port.min = .rangeRight ∨ table port.min = .rangeEdge then .rangeEdge else .rangeLeft)
    let table := Function.update table port.max
      (if table port.max = .rangeLeft ∨ table port.max = .rangeEdge then .rangeEdge else .rangeRight)
    (List.range' (port.min + 1) (port.max - (port.min + 1))).foldl
      (fun table i => if table i = .rangeNone then Function.update table i .rangeIn else table) table

/-- `PortRangeList::create_table`. -/
def createTable (list : List PortRange) : Nat → PortStatus :=
  list.foldl markRange fun _ => .rangeNone

/-- `PortRangeList::interest`: `none` where indexing the table with `last_port = -1`
panics. -/
def interest (list : List PortRange) : Option (List PortRange) :=
  if list = [] then some [] else Server.createPortRangeByTable (createTable list)

/-- The state of `generate_interest_table`'s loop over the segments. -/
structure InterestState where
  interestTable : Nat → PortRange
  portOther : Nat

/-- One segment of that loop, with its position `i` in the list.  `item.min() - 1`
is `u16` arithmetic; it wraps at `min = 0` only, which no segment after the first
has. -/
def interestStep (st : InterestState) (ii : PortRange × Nat) : InterestState :=
  let (item, i) := ii
  let portOther :=
    if i = 0 then (if item.min = 0 then item.max else 0)
    else if st.portOther ≥ (item.min + 65535) % 65536 then item.max
    else st.portOther
  { interestTable := (List.range' item.min (item.max + 1 - item.min)).foldl
      (fun table j => Function.update table j item) st.interestTable
    portOther }

/-- `FastPath::generate_interest_table`: `none` where `interest` panics.  Its last
loop, over every port, is the server's `fillOther`. -/
def generateInterestTable (acls : List (Acl P)) : Option (Nat → PortRange) := do
  let list ← interest (acls.flatMap fun acl => acl.srcPortRanges ++ acl.dstPortRanges)
  let st := list.zipIdx.foldl interestStep ⟨fun _ => ⟨0, 0⟩, 0⟩
  if st.portOther ≠ 0 ∧ st.portOther < 65535 then
    some ((List.range 65536).foldl (Server.fillOther (st.portOther + 1)) st.interestTable)
  else some st.interestTable

/-- `FastPath::interest_table_map`: the packet's source and destination ports
afterwards. -/
def interestTableMap (interestTable : Nat → PortRange) (srcPort dstPort : Nat) : Nat × Nat :=
  ((interestTable srcPort).min, (interestTable dstPort).min)

end Sophon.Agent
